import QuantCore.Proofs.Balance
import QuantCore.Proofs.Emission
import QuantCore.Proofs.Files

/-!
# The coins in circulation

Along a branch the net of every token and of every share is nothing: what was
issued is held. QNT comes with coinbases only, each paid by the subsidy of its
height and the fees of its block. The check of that is made in 64 bits, where a
coinbase of 2^64 units counts for nothing; on a branch without such a coinbase
there is no more QNT than has been issued through its height.
-/

namespace QuantCore

open Maps Totals

variable [Crypto]

/-! ## The ids of assets -/

/-- The id of a token that a transaction of the blocks around creates. -/
def MintedId (known : Block → Prop) (x : Hash256) : Prop :=
  ∃ b, known b ∧ ∃ t ∈ b.txs, ∃ i c, t.ops[i]? = some (.createToken c) ∧
    x = tokenId (t.ins.headD default).prev (UInt32.ofNat i)

/-- No id of a token or of a pool's shares, among those of the blocks around,
is that of another asset. -/
structure IdsApart (known : Block → Prop) : Prop where
  token : ∀ x, MintedId known x → x ≠ qntAsset
  share : ∀ x, MintedId known x → poolShareId x ≠ qntAsset
  kinds : ∀ x y, MintedId known x → MintedId known y → poolShareId x ≠ y
  shares : ∀ x y, MintedId known x → MintedId known y → poolShareId x = poolShareId y → x = y

/-- Every token was created by a transaction that is around, and every pool is of
a token there is. -/
structure StateReader.Registered (known : Block → Prop) (s : StateReader) : Prop where
  token : ∀ x, (s.token x).isSome → MintedId known x
  pool : ∀ x, (s.pool x).isSome → (s.token x).isSome

variable {known : Block → Prop}

theorem registered_op {tx : Transaction} {height : UInt64} {coins : List Coin} {k : Nat}
    {s s' : RefState} {op : TxOp} (hk : KnownTx known tx) (hop : tx.ops[k]? = some op)
    (h : s.state.Registered known)
    (hs : s.op tx height coins (UInt32.ofNat k) op = .ok s') : s'.state.Registered known := by
  have hpool : ∀ {t : Hash256}, op.poolToken = some t → s'.state.Registered known := by
    intro t ht
    rw [RefState.op_pool ht] at hs
    cases hstep : poolStep (s.state.token t).isSome op (s.state.pool t) with
    | error e => rw [hstep] at hs; cases hs
    | ok p =>
        rw [hstep] at hs
        cases hs
        have htoken : (s.state.token t).isSome := by
          cases hold : s.state.pool t with
          | some q => exact h.pool t (by rw [hold]; rfl)
          | none =>
              rw [hold] at hstep
              cases op with
              | poolCreate c =>
                  simp only [poolStep] at hstep
                  split at hstep
                  · cases hstep
                  · next hknown => exact Bool.not_eq_false _ |>.mp fun hf => hknown (by rw [hf]; rfl)
              | _ => cases hstep
        refine ⟨h.token, fun x hx => ?_⟩
        have hx : (Function.update s.state.pool t (some p) x).isSome := hx
        rw [Function.update_apply] at hx
        split at hx
        · next he => exact he ▸ htoken
        · exact h.pool x hx
  cases op with
  | createToken c =>
      simp only [RefState.op] at hs
      split at hs
      · cases hs
      · cases hs
        have hup : ∀ x i, (Function.update s.state.token (tokenId (tx.ins.headD default).prev
            (UInt32.ofNat k)) (some i) x).isSome ↔
            x = tokenId (tx.ins.headD default).prev (UInt32.ofNat k) ∨
              (s.state.token x).isSome := by
          intro x i
          rw [Function.update_apply]
          split
          · next he => exact iff_of_true rfl (.inl he)
          · next hne => exact ⟨.inr, fun h => h.resolve_left hne⟩
        refine ⟨fun x hx => ?_, fun x hx => (hup x _).mpr (.inr (h.pool x hx))⟩
        rcases (hup x _).mp hx with rfl | hx
        · obtain ⟨b, hb, u, hu, hcore⟩ := hk
          have hops : u.core.ops = tx.core.ops := congrArg Transaction.ops hcore
          have hins : u.core.ins = tx.core.ins := congrArg Transaction.ins hcore
          exact ⟨b, hb, u, hu, k, c, hops ▸ hop, hins ▸ rfl⟩
        · exact h.token x hx
  | message m =>
      simp only [RefState.op] at hs
      split at hs
      · cases hs
        exact h
      · cases hs
  | poolCreate c => exact hpool rfl
  | addLiquidity c => exact hpool rfl
  | removeLiquidity c => exact hpool rfl
  | swap c => exact hpool rfl

theorem registered_ops {tx : Transaction} {height : UInt64} {coins : List Coin} {k : Nat}
    {s s' : RefState} {l : List TxOp} (hk : KnownTx known tx) (hl : tx.ops.drop k = l)
    (hs : RefState.ops tx height coins (UInt32.ofNat k) l s = .ok s')
    (h : s.state.Registered known) :
    s'.state.Registered known := by
  induction l generalizing k s with
  | nil =>
      cases hs
      exact h
  | cons op l ih =>
      rw [RefState.ops] at hs
      split at hs
      · cases hs
      next s₁ hop =>
      have hat : tx.ops[k]? = some op := by
        rw [← List.head?_drop, hl, List.head?_cons]
      have hnext : UInt32.ofNat k + 1 = UInt32.ofNat (k + 1) := (UInt32.ofNat_add k 1).symm
      rw [hnext] at hs
      refine ih ?_ hs (registered_op hk hat h hop)
      rw [← List.tail_drop, hl, List.tail_cons]

theorem StateReader.Registered.congr {s s' : StateReader} (h : s.Registered known)
    (ht : s'.token = s.token) (hp : s'.pool = s.pool) : s'.Registered known where
  token := by rw [ht]; exact h.token
  pool := by rw [ht, hp]; exact h.pool

theorem registered_step {tx : Transaction} {height : UInt64} {genesis : Hash256} {verify : Bool}
    {s s' : StateReader} {fee : Amount} (hk : KnownTx known tx) (h : s.Registered known)
    (hs : s.step tx height genesis verify = .ok (s', fee)) : s'.Registered known := by
  obtain ⟨-, -, coins, r, r', hins, hops, -, -, rfl⟩ := step_ok hs
  obtain ⟨htoken, hpool, -⟩ := RefState.inputs_frame hins
  have hstart : r.state.Registered known := h.congr htoken hpool
  have hend := registered_ops (k := 0) hk rfl hops hstart
  exact hend.congr (by rw [StateReader.addCoins_eq]) (by rw [StateReader.addCoins_eq])

/-! ## The rest of a block -/

/-- What the transactions after the coinbase do to any net: one sum of fees, of
which the block knows the rest by 2^64. -/
theorem StateReader.txs_net (hcf : Collisionless known) {n : Nat} {hist : List Transaction}
    {height : UInt64} (hheight : height.toNat < 2 ^ 63) {genesis : Hash256} {verify : Bool}
    {txs : List Transaction} {s s' : StateReader} {fees fees' : Amount}
    (hh : History known n hist s) (hp : s.Solvent) (hr : s.Registered known)
    (hk : ∀ t ∈ txs, KnownTx known t) (hnd : ∀ t ∈ txs, (t.ins.map TxIn.prev).Nodup)
    (houts : ∀ t ∈ txs, t.outs.length < 2 ^ 32)
    (hs : s.txs height genesis verify txs fees = .ok (s', fees')) :
    s'.Solvent ∧ s'.Registered known ∧ ∃ paid : Nat, fees' = fees + UInt64.ofNat paid ∧
      ∀ w a m, (∀ c, Settled height c → w c = c.worth a) → s.Net w a m →
        s'.Net w a (m - if a = qntAsset then (paid : Int) else 0) := by
  induction txs generalizing s hist fees with
  | nil =>
      cases hs
      refine ⟨hp, hr, 0, (UInt64.add_zero _).symm, fun w a m _ h => ?_⟩
      rwa [Nat.cast_zero, ite_self, Int.sub_zero]
  | cons tx txs ih =>
      rw [List.forall_mem_cons] at hk hnd houts
      rw [StateReader.txs] at hs
      split at hs
      · cases hs
      next s₁ fee hstep =>
      obtain ⟨hnew, hh₁⟩ := hh.step hcf hk.1 hnd.1 hstep
      have hfresh := hh.fresh hnew
      have hnet : ∀ w a m, (∀ c, Settled height c → w c = c.worth a) → s.Net w a m →
          s₁.Net w a (m - if a = qntAsset then (fee.toNat : Int) else 0) :=
        fun w a m hw h => h.step hw hheight hp hfresh houts.1 hstep
      obtain ⟨hp', hr', paid, hfees, hrest⟩ := ih hh₁ (hp.step hstep)
        (registered_step hk.1 hr hstep) hk.2 hnd.2 houts.2 hs
      refine ⟨hp', hr', fee.toNat + paid, ?_, fun w a m hw h => ?_⟩
      · rw [hfees, UInt64.ofNat_add, UInt64.ofNat_toNat, UInt64.add_assoc]
      · have h₂ := hrest w a _ hw (hnet w a m hw h)
        convert h₂ using 1
        by_cases ha : a = qntAsset
        · rw [if_pos ha, if_pos ha, if_pos ha]
          push_cast
          ring
        · rw [if_neg ha, if_neg ha, if_neg ha, Int.sub_zero, Int.sub_zero]

/-! ## A block -/

/-- A block on top of a branch: what its coinbase brings comes in, and its fees
go out. -/
theorem StateReader.block_net (hcf : Collisionless known) {n : Nat} {hist : List Transaction}
    {s s' : StateReader} (hh : History known n hist s) (hn : n + 1 < 2 ^ 63) {b : Block}
    (hk : ∀ t ∈ b.txs, KnownTx known t) (hc : b.Checked (n + 1))
    (houts : ∀ t ∈ b.txs, t.outs.length < 2 ^ 32) {genesis : Hash256} {verify : Bool}
    (hp : s.Solvent) (hr : s.Registered known)
    (hs : s.block b (n + 1) genesis verify = .ok s') :
    s'.Solvent ∧ s'.Registered known ∧ ∃ paid : Nat,
      (b.txs.headD default).totalQntOut ≤
        blockSubsidy (UInt64.ofNat (n + 1)) + UInt64.ofNat paid ∧
      ∀ w a m v, (∀ c, Settled (UInt64.ofNat (n + 1)) c → w c = c.worth a) → s.Net w a m →
        ((b.txs.headD default).outs.map fun o => w ⟨o, UInt64.ofNat (n + 1), true⟩).sum = v →
        s'.Net w a (m + v - if a = qntAsset then (paid : Int) else 0) := by
  obtain ⟨cb, rest, htxs, hcb, hlock, -⟩ := hc.txs_eq
  have hheight : (UInt64.ofNat (n + 1)).toNat < 2 ^ 63 := by
    rw [UInt64.toNat_ofNat', Nat.mod_eq_of_lt (by omega)]
    exact hn
  have hnd : ∀ t ∈ b.txs, (t.ins.map TxIn.prev).Nodup :=
    fun t ht => checkTxBasic_nodup (hc.basic t ht)
  obtain ⟨fees, hrest, hpay⟩ := block_ok hs
  have hpay := hpay (Nat.succ_pos n)
  rw [htxs, List.forall_mem_cons] at hk houts hnd
  rw [htxs, List.headD_cons, List.tail_cons] at hrest
  rw [htxs, List.headD_cons] at hpay ⊢
  have hnew := hh.new_coinbase hcf hn hk.1 hcb hlock
  have hp₁ : (s.applyCoinbase cb (UInt64.ofNat (n + 1))).Solvent := by
    intro t p hq
    rw [StateReader.applyCoinbase, StateReader.addCoins_eq] at hq
    exact hp t p hq
  have hr₁ : (s.applyCoinbase cb (UInt64.ofNat (n + 1))).Registered known :=
    hr.congr (by rw [StateReader.applyCoinbase, StateReader.addCoins_eq])
      (by rw [StateReader.applyCoinbase, StateReader.addCoins_eq])
  obtain ⟨hp', hr', paid, hfees, hnet⟩ := StateReader.txs_net hcf hheight
    (hh.applyCoinbase hcf hn hk.1 hcb hlock) hp₁ hr₁ hk.2 hnd.2 houts.2 hrest
  rw [UInt64.zero_add] at hfees
  rw [hfees] at hpay
  refine ⟨hp', hr', paid, hpay, fun w a m v hw h hv => ?_⟩
  exact hnet w a _ hw (h.outputs (hh.fresh hnew) houts.1 true hv)

/-! ## QNT -/

/-- The QNT of a block's coinbase, summed without wrapping, fits 64 bits. -/
def Block.CoinbaseFits (b : Block) : Prop :=
  assetValue qntAsset (b.txs.headD default).outs < 2 ^ 64

omit [Crypto] in
instance (b : Block) : Decidable b.CoinbaseFits := inferInstanceAs (Decidable (_ < _))

omit [Crypto] in
theorem Block.coinbaseFits_core (b : Block) : b.core.CoinbaseFits ↔ b.CoinbaseFits := by
  rw [CoinbaseFits, CoinbaseFits, core]
  cases b.txs with
  | nil => exact Iff.rfl
  | cons t txs => exact Iff.rfl

theorem Pool.worth_qnt (hi : IdsApart known) {s : StateReader} (hr : s.Registered known)
    {t : Hash256} {p : Pool} (hp : s.pool t = some p) : p.worth qntAsset t = p.qnt.toNat := by
  have hid := hr.token t (hr.pool t (by rw [hp]; rfl))
  rw [Pool.worth, if_pos rfl, if_neg (hi.token t hid), if_neg (hi.share t hid)]
  omega

theorem TokenInfo.worth_qnt (hi : IdsApart known) {s : StateReader} (hr : s.Registered known)
    {id : Hash256} {t : TokenInfo} (ht : s.token id = some t) : t.worth qntAsset id = 0 :=
  if_neg (hi.token id (hr.token id (by rw [ht]; rfl)))

/-- The QNT of a state is that of its coins and its pools. -/
theorem StateReader.Net.qnt {w : Coin → Int} {s : StateReader} {q : Int} (hi : IdsApart known)
    (hr : s.Registered known) (h : s.Net w qntAsset q) :
    ∃ c p, Weighs (fun _ => w) s.coin c ∧ Weighs (fun _ p => (p.qnt.toNat : Int)) s.pool p ∧
      q = c + p := by
  obtain ⟨c, p, t, hc, hp, ht, rfl⟩ := h
  have hzero : t = 0 := ht.eq_zero fun _ _ hx => TokenInfo.worth_qnt hi hr hx
  refine ⟨c, p, hc, hp.congr fun _ _ hx => Pool.worth_qnt hi hr hx, ?_⟩
  rw [hzero, Int.sub_zero]

theorem StateReader.Net.qnt_nonneg {w : Coin → Int} {s : StateReader} {q : Int}
    (hi : IdsApart known) (hr : s.Registered known) (hw : ∀ c, 0 ≤ w c)
    (h : s.Net w qntAsset q) : 0 ≤ q := by
  obtain ⟨c, p, hc, hp, rfl⟩ := h.qnt hi hr
  exact Int.add_nonneg (hc.nonneg fun _ c _ => hw c)
    (hp.nonneg fun _ p _ => Int.natCast_nonneg _)

/-- The fees of a block come out of the QNT there was before it: what its own
coinbase pays cannot be spent yet. -/
theorem StateReader.block_qnt (hcf : Collisionless known) (hi : IdsApart known) {n : Nat}
    {hist : List Transaction} {s s' : StateReader} (hh : History known n hist s)
    (hn : n + 1 < 2 ^ 63) {b : Block} (hk : ∀ t ∈ b.txs, KnownTx known t)
    (hc : b.Checked (n + 1)) (houts : ∀ t ∈ b.txs, t.outs.length < 2 ^ 32)
    {genesis : Hash256} {verify : Bool} (hp : s.Solvent) (hr : s.Registered known)
    (hs : s.block b (n + 1) genesis verify = .ok s') {q : Int}
    (hq : s.Net (Coin.worth qntAsset) qntAsset q) :
    ∃ paid : Nat, (paid : Int) ≤ q ∧
      (b.txs.headD default).totalQntOut ≤
        blockSubsidy (UInt64.ofNat (n + 1)) + UInt64.ofNat paid ∧
      s'.Net (Coin.worth qntAsset) qntAsset
        (q + assetValue qntAsset (b.txs.headD default).outs - paid) := by
  obtain ⟨-, hr', paid, hpay, hnet⟩ := StateReader.block_net hcf hh hn hk hc houts hp hr hs
  refine ⟨paid, ?_, hpay, ?_⟩
  · -- Counted without the coinbases of this height, the net only falls.
    let old : Coin → Int := fun c =>
      if c.coinbase = true ∧ c.height = UInt64.ofNat (n + 1) then 0 else c.worth qntAsset
    have hworth : ∀ c : Coin, 0 ≤ c.worth qntAsset := by
      intro c
      rw [Coin.worth]
      split
      · exact Int.natCast_nonneg _
      · exact Int.le_refl 0
    obtain ⟨coins, pools, tokens, hcoins, hpools, htokens, rfl⟩ := hq
    obtain ⟨less, hle, hless⟩ := hcoins.lighter (u := fun _ => old) fun _ c _ => by
      show (if _ then 0 else c.worth qntAsset) ≤ _
      split
      · exact hworth c
      · exact Int.le_refl _
    have hend := hnet old qntAsset (less + pools - tokens) 0 (fun c hc => if_neg hc)
      ⟨less, pools, tokens, hless, hpools, htokens, rfl⟩
      (List.sum_eq_zero fun x hx => by
        obtain ⟨o, -, rfl⟩ := List.mem_map.mp hx
        exact if_pos ⟨rfl, rfl⟩)
    have hpos := hend.qnt_nonneg hi hr' fun c => by
      show 0 ≤ (if _ then 0 else c.worth qntAsset)
      split
      · exact Int.le_refl 0
      · exact hworth c
    rw [if_pos rfl] at hpos
    omega
  · have hend := hnet (Coin.worth qntAsset) qntAsset q _ (fun _ _ => rfl) hq (sum_worth fun _ => rfl)
    rwa [if_pos rfl] at hend

/-! ## The emission -/

omit [Crypto] in
/-- Through every height up to `n` no more than `maxMoney` is issued. -/
def IssuedWithin (n : Nat) : Prop := ∀ k ≤ n, issuedThrough (UInt64.ofNat k) ≤ maxMoney

omit [Crypto] in
instance (n : Nat) : Decidable (IssuedWithin n) :=
  inferInstanceAs (Decidable (∀ k ≤ n, issuedThrough (UInt64.ofNat k) ≤ maxMoney))

omit [Crypto] in
theorem issuedThrough_toNat {n : Nat} (hn : n < 2 ^ 63) (hfit : emitted n < 2 ^ 64) :
    (issuedThrough (UInt64.ofNat n)).toNat = emitted n := by
  have hnat : (UInt64.ofNat n).toNat = n := UInt64.toNat_ofNat_of_lt' (hn.trans (by decide))
  rw [issuedThrough, hnat, EmissionCache.issuedSteps_toNat hfit]

omit [Crypto] in
theorem IssuedWithin.emitted_le {n : Nat} (hn : n < 2 ^ 63) (h : IssuedWithin n) :
    emitted n ≤ maxMoney.toNat := by
  induction n with
  | zero => exact Nat.zero_le _
  | succ n ih =>
      have hlast := ih (Nat.lt_of_succ_lt hn) fun k hk => h k (Nat.le_succ_of_le hk)
      have hstep : subsidyNat (emitted n) ≤ 2 ^ 60 :=
        Nat.max_le.mpr ⟨by decide, (Nat.div_le_self _ _).trans ((Nat.sub_le _ _).trans (by decide))⟩
      have hnext : emitted (n + 1) = emitted n + subsidyNat (emitted n) := rfl
      have hmax : maxMoney.toNat = 10000000000000000000 := rfl
      have hfit : emitted (n + 1) < 2 ^ 64 := by omega
      rw [← issuedThrough_toNat hn hfit]
      exact UInt64.le_iff_toNat_le.mp (h (n + 1) (Nat.le_refl _))

omit [Crypto] in
theorem blockSubsidy_toNat {n : Nat} (hn : n + 1 < 2 ^ 63) (hfit : emitted n < 2 ^ 64) :
    (blockSubsidy (UInt64.ofNat (n + 1))).toNat = subsidyNat (emitted n) := by
  have hsucc : UInt64.ofNat (n + 1) = UInt64.ofNat n + 1 := UInt64.ofNat_add n 1
  have hne : UInt64.ofNat (n + 1) ≠ 0 := by
    intro he
    have hnat := congrArg UInt64.toNat he
    rw [UInt64.toNat_ofNat_of_lt' (hn.trans (by decide))] at hnat
    exact absurd hnat (Nat.succ_ne_zero n)
  rw [blockSubsidy, if_neg hne, hsucc, UInt64.add_sub_cancel, subsidyAfter_toNat,
    issuedThrough_toNat (Nat.lt_of_succ_lt hn) hfit]

/-! ## The branch -/

omit [Crypto] in
theorem checkOuts_spec {coinbase : Bool} {outs : List TxOut} {q : Amount}
    (h : checkOuts coinbase outs q = .ok ()) :
    ∀ o ∈ outs, o.value ≠ 0 ∧ (coinbase = true → o.asset = qntAsset) := by
  induction outs generalizing q with
  | nil => exact fun o ho => absurd ho List.not_mem_nil
  | cons o outs ih =>
      rw [checkOuts] at h
      split at h
      · cases h
      next hvalue =>
      split at h
      · next hqnt =>
          split at h
          · cases h
          split at h
          · cases h
          split at h
          · cases h
          exact List.forall_mem_cons.mpr ⟨⟨hvalue, fun _ => isQnt_iff.mp hqnt⟩, ih h⟩
      · split at h
        · cases h
        next hcb =>
        split at h
        · cases h
        exact List.forall_mem_cons.mpr ⟨⟨hvalue, fun hc => absurd hc hcb⟩, ih h⟩

omit [Crypto] in
theorem checkTxBasic_outs {tx : Transaction} {w : Bool} {a : Amount}
    (h : checkTxBasic tx w = .ok a) :
    ∀ o ∈ tx.outs, o.value ≠ 0 ∧ (tx.isCoinbase = true → o.asset = qntAsset) := by
  rw [checkTxBasic] at h
  split at h
  · cases h
  split at h
  · cases h
  next houts => exact checkOuts_spec houts

namespace Branch

variable {net : Network}

/-- Every block of a branch is around, signatures aside. -/
theorem around {n : Nat} {h : Hash256} {bs : List Block} {L : StateReader}
    (hb : Branch (paramsFor net) known n h bs L) :
    ∀ b ∈ bs, b = (paramsFor net).genesis ∨ ∃ x, known x ∧ b = x.core := by
  induction hb with
  | genesis => exact fun b hb => .inl (List.mem_singleton.mp hb)
  | block hb hk hc hn hst ih => exact List.forall_mem_cons.mpr ⟨.inr ⟨_, hk, rfl⟩, ih⟩

theorem outs_lt (hs : Sources net known) {b : Block} (hk : known b) :
    ∀ t ∈ b.core.txs, t.outs.length < 2 ^ 32 := by
  intro t ht
  rw [Block.core] at ht
  obtain ⟨u, hu, rfl⟩ := List.mem_map.mp ht
  exact ((hs.limits b hk).tx u hu).outs.trans_lt (by decide)

/-- Along a branch pools are solvent, and what is issued of any asset but QNT is
held by coins and pools. -/
theorem net_zero (hs : Sources net known) {n : Nat} {h : Hash256} {bs : List Block}
    {L : StateReader} (hb : Branch (paramsFor net) known n h bs L) :
    L.Solvent ∧ L.Registered known ∧
      ∀ a, a ≠ qntAsset → L.Net (Coin.worth a) a 0 := by
  induction hb with
  | genesis =>
      refine ⟨fun t p hp => ?_, ⟨fun x hx => ?_, fun x hx => ?_⟩, fun a _ => .empty _ a⟩
      · cases hp
      · cases hx
      · cases hx
  | @block n bs L L' b hb hk hc hn hst ih =>
      obtain ⟨hp, hr, hnet⟩ := ih
      obtain ⟨hp', hr', paid, -, hblock⟩ := StateReader.block_net hs.free
        (hb.history hs.free hs.genesis) hn (fun t ht => .of_core hk ht) hc.core (outs_lt hs hk)
        hp hr hst
      refine ⟨hp', hr', fun a ha => ?_⟩
      have hend := hblock (Coin.worth a) a 0 _ (fun _ _ => rfl) (hnet a ha) (sum_worth fun _ => rfl)
      obtain ⟨cb, rest, htxs, hcb, -⟩ := hc.core.txs_eq
      have hbasic := hc.core.basic cb (by rw [htxs]; exact List.mem_cons_self)
      have hzero : assetValue a (b.core.txs.headD default).outs = 0 := by
        rw [htxs, List.headD_cons]
        refine assetValue_eq_zero fun o ho he => ha ?_
        rw [← he]
        exact (checkTxBasic_outs hbasic o ho).2 hcb
      rwa [hzero, if_neg ha] at hend

/-- Where every coinbase fits, no more QNT is held than has been issued. -/
theorem qnt_le (hs : Sources net known) (hi : IdsApart known) {n : Nat} {h : Hash256}
    {bs : List Block} {L : StateReader} (hb : Branch (paramsFor net) known n h bs L)
    (hfit : ∀ b ∈ bs, b.CoinbaseFits) (hissued : IssuedWithin n) :
    ∃ q, L.Net (Coin.worth qntAsset) qntAsset q ∧ q ≤ emitted n := by
  induction hb with
  | genesis => exact ⟨0, .empty _ _, Int.le_refl 0⟩
  | @block n bs L L' b hb hk hc hn hst ih =>
      rw [List.forall_mem_cons] at hfit
      obtain ⟨q, hq, hle⟩ := ih hfit.2 fun k hkn => hissued k (Nat.le_succ_of_le hkn)
      obtain ⟨hp, hr, -⟩ := hb.net_zero hs
      obtain ⟨paid, hpaid, hpay, hnet⟩ := StateReader.block_qnt hs.free hi
        (hb.history hs.free hs.genesis) hn (fun t ht => .of_core hk ht) hc.core (outs_lt hs hk)
        hp hr hst hq
      refine ⟨_, hnet, ?_⟩
      have hmax := hissued.emitted_le hn
      have hmoney : maxMoney.toNat < 2 ^ 64 := maxMoney.toNat_lt
      have hnext : emitted (n + 1) = emitted n + subsidyNat (emitted n) := rfl
      have hpaidNat : (UInt64.ofNat paid).toNat = paid := by
        rw [UInt64.toNat_ofNat', Nat.mod_eq_of_lt (by omega)]
      have hvalue : ((b.core.txs.headD default).totalQntOut).toNat =
          assetValue qntAsset (b.core.txs.headD default).outs := by
        rw [totalQntOut_eq, UInt64.toNat_ofNat', Nat.mod_eq_of_lt hfit.1]
      rw [UInt64.le_iff_toNat_le, hvalue, UInt64.toNat_add,
        blockSubsidy_toNat hn (by omega), hpaidNat, Nat.mod_eq_of_lt (by omega)] at hpay
      omega

end Branch

end QuantCore
