import QuantCore.Proofs.Estimate

/-!
# What a failed build leaves behind

Two kinds of calls move the wallet on though they fail. `create_token` hands an
address out before it checks anything. Any other call hands one out for the
change, when its coins are chosen, and after that two things can still go wrong:
a coin that was chosen has no key, or the fee is below the relay minimum for what
was signed. Neither happens in a wallet that holds the keys of its coins, as long
as the fee and the sums that are paid stay within 64 bits: there only a new token
costs an address.
-/

namespace QuantCore

open Maps

section

variable [Crypto]

namespace Wallet

/-- Every coin that may be spent is at an address the wallet has the key of. -/
def Keyed (w : Wallet) (tip : Int) : Prop :=
  ∀ c ∈ w.spendableCoins tip, w.isMine c.out.addr = true

/-- Signing goes wrong: a chosen coin has no key, or what is paid as the fee is
below the relay minimum for the size of what is signed. -/
def Balks (w : Wallet) (signer : Signer) (p : Plan) (d : Plan.Draft) (changeAddr : Hash256) :
    Prop :=
  (∃ c ∈ d.sel, w.isMine c.out.addr = false) ∨
    ∃ tx, w.signTx signer (assemble p d changeAddr) d.sel = .ok tx ∧
      p.actual d.qhave tx < tx.relayFee.toNat

end Wallet

/-- The call fails, if it does, with an address handed out: it is for a new token,
or signing goes wrong after the change has its address. -/
def Request.FailsLate (r : Request) (w : Wallet) (signer : Signer) (tip : Int)
    (feePerKb : Amount) : Prop :=
  (∃ t, r = .createToken t) ∨ ∃ p d ca w', r.plan w tip 0 = .ok p ∧
    p.draft (w.spendableCoins tip) (Wallet.feeRate feePerKb) = .ok d ∧ d.change ≠ [] ∧
    w.issueKey "(change)" = some (ca, w') ∧ w'.Balks signer p d ca

namespace Wallet

variable {w w' : Wallet} {signer : Signer} {r : Request} {tip : Int} {feePerKb : Amount}
  {res : Except String (Transaction × Amount)}

/-- The wallet's keys with their labels and flags, its next index, its coins and
its history are as they were. -/
def Unchanged (w w' : Wallet) : Prop :=
  w'.keys = w.keys ∧ w'.nextIndex = w.nextIndex ∧ w'.coins = w.coins ∧ w'.history = w.history

/-! ## Signing -/

omit [Crypto] in
/-- The one thing signing can lack is a key. -/
theorem witnesses_error {sighash : Hash256} (l : List (WalletCoin × Nat)) :
    ∀ firstUse : UMap Hash256 Nat,
      (∀ a i, firstUse.lookup a = some i → w.isMine a = true) →
      ((∃ e, w.witnesses signer sighash l firstUse = .error e) ↔
        ∃ c ∈ l, w.isMine c.1.out.addr = false) := by
  induction l with
  | nil =>
      intro firstUse _
      refine iff_of_false (fun h => ?_) fun h => ?_
      · obtain ⟨e, he⟩ := h
        cases he
      · obtain ⟨c, hc, -⟩ := h
        cases hc
  | cons x l ih =>
      obtain ⟨c, i⟩ := x
      intro firstUse hfirst
      have hmap : ∀ (r : Except String (List Witness)) (x : Witness),
          (∃ e, (x :: ·) <$> r = .error e) ↔ ∃ e, r = .error e := fun r x => by
        cases r with
        | error e => exact iff_of_true ⟨e, rfl⟩ ⟨e, rfl⟩
        | ok ws =>
            refine iff_of_false (fun h => ?_) fun h => ?_
            · obtain ⟨e, he⟩ := h
              cases he
            · obtain ⟨e, he⟩ := h
              cases he
      simp only [witnesses, List.exists_mem_cons_iff]
      cases hl : firstUse.lookup c.out.addr with
      | some n =>
          -- the address has signed already, so its key is there
          dsimp only
          rw [hmap, ih firstUse hfirst, hfirst _ _ hl]
          simp
      | none =>
          dsimp only
          cases hk : w.byAddr.lookup c.out.addr with
          | none => exact iff_of_true ⟨_, rfl⟩ (.inl (by rw [isMine, hk]; rfl))
          | some k =>
              have hmine : w.isMine c.out.addr = true := by rw [isMine, hk]; rfl
              dsimp only
              rw [hmap, ih _ fun a j ha => ?_, hmine]
              · simp
              · rw [lookup_insert_ite] at ha
                split at ha
                · next he => exact he ▸ hmine
                · exact hfirst a j ha

/-- What `build` can still fail at after the change has its address. -/
theorem finishBuild_error {p : Plan} {d : Plan.Draft} {ca : Hash256} :
    (∃ e, w.finishBuild signer p d ca = .error e) ↔ w.Balks signer p d ca := by
  have hkeys := @witnesses_error w signer
    (signatureHash w.params.genesisHash (assemble p d ca).txid) d.sel.zipIdx ∅
    fun a i ha => by rw [AList.lookup_empty] at ha; cases ha
  have hsel : (∃ c ∈ d.sel.zipIdx, w.isMine c.1.out.addr = false) ↔
      ∃ c ∈ d.sel, w.isMine c.out.addr = false := by
    refine ⟨fun h => ?_, fun h => ?_⟩
    · obtain ⟨c, hc, hm⟩ := h
      exact ⟨c.1, List.fst_mem_of_mem_zipIdx hc, hm⟩
    · obtain ⟨c, hc, hm⟩ := h
      rw [← List.zipIdx_map_fst 0 d.sel] at hc
      obtain ⟨x, hx, rfl⟩ := List.mem_map.mp hc
      exact ⟨x, hx, hm⟩
  rw [hsel] at hkeys
  rw [Balks, ← hkeys]
  simp only [finishBuild, signTx]
  cases hw : w.witnesses signer (signatureHash w.params.genesisHash (assemble p d ca).txid)
      d.sel.zipIdx ∅ with
  | error e =>
      exact iff_of_true ⟨e, rfl⟩ (.inl ⟨e, rfl⟩)
  | ok ws =>
      simp only [Functor.map, Except.map, bind, Except.bind, reduceCtorEq, exists_false, false_or,
        Except.ok.injEq, exists_eq_left']
      split
      · next hlow => exact iff_of_true ⟨_, rfl⟩ hlow
      · next hlow =>
          refine iff_of_false (fun h => ?_) hlow
          obtain ⟨e, he⟩ := h
          cases he

/-! ## What a failing call has done -/

omit [Crypto] in
theorem add_one_ne (n : UInt32) : n + 1 ≠ n ∧ n + 1 + 1 ≠ n := by
  have hlt := n.toNat_lt
  have hone : (1 : UInt32).toNat = 1 := rfl
  refine ⟨fun h => ?_, fun h => ?_⟩
  · have ht := congrArg UInt32.toNat h
    rw [UInt32.toNat_add, hone] at ht
    omega
  · have ht := congrArg UInt32.toNat h
    rw [UInt32.toNat_add, UInt32.toNat_add, hone] at ht
    omega

/-- A build that fails has changed nothing, or has drafted a transaction with
change, handed out the address for it, and not signed. -/
theorem build_error {p : Plan} {e : String}
    (h : w.build signer p tip feePerKb = some (.error e, w')) :
    w' = w ∧ (∀ d, p.draft (w.spendableCoins tip) (feeRate feePerKb) = .ok d → d.change = []) ∨
      ∃ d ca, p.draft (w.spendableCoins tip) (feeRate feePerKb) = .ok d ∧ d.change ≠ [] ∧
        w.issueKey "(change)" = some (ca, w') ∧ w'.Balks signer p d ca := by
  simp only [build] at h
  split at h
  · next e' he =>
      cases h
      exact .inl ⟨rfl, fun d hd => by cases he.symm.trans hd⟩
  · next d hd =>
      split at h
      · next hempty =>
          simp only [Option.some.injEq, Prod.mk.injEq] at h
          refine .inl ⟨h.2.symm, fun d' hd' => ?_⟩
          cases hd.symm.trans hd'
          exact List.isEmpty_iff.mp hempty
      · next hne =>
          rw [changeAddr_eq] at h
          split at h
          · cases h
          · next ca w₁ ha =>
              simp only [Option.some.injEq, Prod.mk.injEq] at h
              obtain ⟨hfail, rfl⟩ := h
              exact .inr ⟨d, ca, hd, fun hc => hne (List.isEmpty_iff.mpr hc), ha,
                finishBuild_error.mp ⟨e, hfail⟩⟩

/-- A new token costs an address, or two, whatever comes of it. -/
theorem createToken_moves {t : OpCreateToken}
    (h : w.request signer (.createToken t) tip feePerKb = some (res, w')) :
    w'.nextIndex ≠ w.nextIndex := by
  rw [request_eq] at h
  split at h
  · cases h
  · next owner w₁ hprep =>
      rw [prepare, changeAddr_eq] at hprep
      have hone := (issueKey_frame hprep).2.2.2
      simp only [buildFrom] at h
      split at h
      · cases h
        rw [hone]
        exact (add_one_ne _).1
      · next p hp =>
          simp only [build] at h
          split at h
          · cases h
            rw [hone]
            exact (add_one_ne _).1
          · split at h
            · cases h
              rw [hone]
              exact (add_one_ne _).1
            · rw [changeAddr_eq] at h
              split at h
              · cases h
              · next ca w₂ ha =>
                  cases h
                  rw [(issueKey_frame ha).2.2.2, hone]
                  exact (add_one_ne _).2

/-- Any other call checks its arguments and builds on the wallet as it is. -/
theorem request_of_ne (hr : ∀ t, r ≠ .createToken t) :
    w.request signer r tip feePerKb = w.buildFrom signer (r.plan w tip 0) tip feePerKb := by
  rw [request_eq]
  cases r with
  | createToken t => exact absurd rfl (hr t)
  | _ => rfl

omit [Crypto] in
theorem Unchanged.refl (w : Wallet) : Unchanged w w := ⟨rfl, rfl, rfl, rfl⟩

/-- A failing call leaves the wallet as it was exactly if it does not fail late. -/
theorem unchanged_iff {e : String}
    (h : w.request signer r tip feePerKb = some (.error e, w')) :
    Unchanged w w' ↔ ¬ r.FailsLate w signer tip feePerKb := by
  by_cases ht : ∃ t, r = .createToken t
  · obtain ⟨t, rfl⟩ := ht
    exact iff_of_false (fun hs => createToken_moves h hs.2.1) fun hno => hno (.inl ⟨t, rfl⟩)
  · have hr : ∀ t, r ≠ .createToken t := fun t hc => ht ⟨t, hc⟩
    simp only [request_of_ne hr, buildFrom] at h
    split at h
    · next e' he =>
        cases h
        refine iff_of_true (Unchanged.refl w) fun hc => ?_
        rcases hc with hc | ⟨p, d, ca, w₁, hp, -⟩
        · exact ht hc
        · cases he.symm.trans hp
    · next p hp =>
        rcases build_error h with ⟨rfl, hnone⟩ | ⟨d, ca, hd, hne, ha, hbalks⟩
        · refine iff_of_true (Unchanged.refl w') fun hc => ?_
          rcases hc with hc | ⟨p', d, ca, w₁, hp', hd, hne, -⟩
          · exact ht hc
          · cases hp.symm.trans hp'
            exact hne (hnone d hd)
        · refine iff_of_false (fun hs => ?_) fun hno =>
            hno (.inr ⟨p, d, ca, w', hp, hd, hne, ha, hbalks⟩)
          have hone := hs.2.1
          rw [(issueKey_frame ha).2.2.2] at hone
          exact (add_one_ne _).1 hone

/-- With its coins' keys, and amounts that stay within 64 bits, only a call for a
new token fails late. -/
theorem failsLate_iff (hw : w.Reachable) (hs : FalconSized signer) (hk : w.Keyed tip)
    (hfit : ∀ p, r.plan w tip 0 = .ok p → p.Fits (w.spendableCoins tip) (feeRate feePerKb)) :
    r.FailsLate w signer tip feePerKb ↔ ∃ t, r = .createToken t := by
  refine ⟨fun h => ?_, .inl⟩
  rcases h with h | ⟨p, d, ca, w₁, hp, hd, -, ha, hbalks⟩
  · exact h
  · by_contra ht
    have hr : ∀ t, r ≠ .createToken t := fun t hc => ht ⟨t, hc⟩
    have hrate : minRelayFeePerKb ≤ feeRate feePerKb := by
      rw [feeRate]
      split
      · exact UInt64.le_refl _
      · next hlt => exact UInt64.not_lt.mp hlt
    rcases hbalks with ⟨c, hc, hmine⟩ | ⟨tx, htx, hlow⟩
    · obtain ⟨toks, qnts, change, hD⟩ :=
        Plan.draft_drafted (spendableCoins_nodup hw.filed tip) hd
      have hmem := (draft_picked hw.filed (plan_sound hp) hD).2.2 c hc
      have hkept := (issueKey_frame ha).1.keeps _ (hk c hmem)
      exact Bool.false_ne_true (hmine.symm.trans hkept)
    · exact absurd hlow (not_lt.mpr (fee_suffices hw.filed hs (plan_sound hp) (plan_sized hp hr)
        (hfit p hp) hrate hd htx))

/-- A failed call leaves keys, next index, coins and history as they were exactly
if it does not fail late; and in a wallet that has its coins' keys, with amounts
that stay within 64 bits, exactly if it is not for a new token. -/
theorem failed_request_unchanged {e : String}
    (h : w.request signer r tip feePerKb = some (.error e, w')) :
    (Unchanged w w' ↔ ¬ r.FailsLate w signer tip feePerKb) ∧
      (w.Reachable → FalconSized signer → w.Keyed tip →
        (∀ p, r.plan w tip 0 = .ok p → p.Fits (w.spendableCoins tip) (feeRate feePerKb)) →
        (Unchanged w w' ↔ ∀ t, r ≠ .createToken t)) := by
  refine ⟨unchanged_iff h, fun hw hs hk hfit => ?_⟩
  rw [unchanged_iff h, failsLate_iff hw hs hk hfit]
  exact not_exists

end Wallet

end

/-! ## Failures that cost an address -/

/-- The error a call returns and the next index after it. -/
def failed (r : Wallet.Result (Transaction × Amount)) : Option (String × UInt32) :=
  r.bind fun x => match x.1 with
    | .error e => some (e, x.2.nextIndex)
    | .ok _ => none

theorem failed_some {r : Wallet.Result (Transaction × Amount)} {e : String} {n : UInt32}
    (h : failed r = some (e, n)) : ∃ w', r = some (.error e, w') ∧ w'.nextIndex = n := by
  rcases r with _ | ⟨e' | x, w'⟩
  · cases h
  · cases h
    exact ⟨w', rfl, rfl⟩
  · cases h

/-- Without a ticker there is no token, but an address is gone; and a fee rate
whose fee is a multiple of 2^64 fails after the change has its address. -/
theorem failed_request_moves :
    letI := plainCrypto
    saver.nextIndex = 1 ∧
    (∃ w', saver.request stubSigner (.createToken ⟨[], [], 8, 7000, []⟩) 10 0 =
      some (.error "ticker must be 1-10 characters A-Z / 0-9", w') ∧ w'.nextIndex = 2) ∧
    ∃ w', saver.request stubSigner (.swap 9 false 1000 5) 10 0x8000000000000000 =
      some (.error "internal fee estimate too low", w') ∧ w'.nextIndex = 2 := by
  let _ := plainCrypto
  have htoken : failed (saver.request stubSigner (.createToken ⟨[], [], 8, 7000, []⟩) 10 0) =
      some ("ticker must be 1-10 characters A-Z / 0-9", 2) := by decide +kernel
  have hswap : failed (saver.request stubSigner (.swap 9 false 1000 5) 10 0x8000000000000000) =
      some ("internal fee estimate too low", 2) := by decide +kernel
  exact ⟨rfl, failed_some htoken, failed_some hswap⟩

theorem stubSigner_sized : Wallet.FalconSized stubSigner where
  pk _ := List.length_replicate
  sig _ _ := by
    show 1 ≤ falconSigMax
    decide

def tooDear : Request := .swap 9 true 100 20000

theorem saver_keyed : letI := plainCrypto; saver.Keyed 10 := by
  let _ := plainCrypto
  have hall : ((saver.spendableCoins 10).all fun c => saver.isMine c.out.addr) = true := by
    decide +kernel
  exact List.all_eq_true.mp hall

theorem tooDear_fits {p : Plan} : letI := plainCrypto;
    tooDear.plan saver 10 0 = .ok p → p.Fits (saver.spendableCoins 10) (Wallet.feeRate 0) := by
  let _ := plainCrypto
  intro hp
  have hcoins : (saver.spendableCoins 10).map WalletCoin.out =
      [⟨10, 9, 100⟩, ⟨1000000000, qntAsset, 100⟩] := by decide +kernel
  refine ⟨fun a => ?_, ?_⟩
  · rw [hcoins, (swapPlan_released hp a).1, assetValue_cons, assetValue_cons]
    show (if 9 = a then 10 else 0) + ((if qntAsset = a then 1000000000 else 0) + 0) +
      (if a = qntAsset then (20000 : Amount) else 0).toNat < 2 ^ 63
    split <;> split <;> split <;> decide
  · cases hp
    decide +kernel

/-- The wallet has the key of both its coins, and a sale of more than it holds is
of moderate amounts: it fails at the choice of coins, and costs nothing. The fee
rate of 2^63 is beyond them: the call comes as far as signing. -/
theorem failed_request_unchanged_sale :
    letI := plainCrypto
    (∃ w', saver.request stubSigner tooDear 10 0 =
        some (.error "insufficient token balance", w') ∧ saver.Unchanged w') ∧
    ∃ w', saver.request stubSigner (.swap 9 false 1000 5) 10 0x8000000000000000 =
        some (.error "internal fee estimate too low", w') ∧
      (Request.swap 9 false 1000 5).FailsLate saver stubSigner 10 0x8000000000000000 := by
  let _ := plainCrypto
  have hsale : failed (saver.request stubSigner tooDear 10 0) =
      some ("insufficient token balance", 1) := by decide +kernel
  have hswap : failed (saver.request stubSigner (.swap 9 false 1000 5) 10 0x8000000000000000) =
      some ("internal fee estimate too low", 2) := by decide +kernel
  obtain ⟨w₁, hsale, -⟩ := failed_some hsale
  obtain ⟨w₂, hswap, hnext⟩ := failed_some hswap
  refine ⟨⟨w₁, hsale, ?_⟩, w₂, hswap, ?_⟩
  · refine ((Wallet.failed_request_unchanged hsale).2 (.opened ..) stubSigner_sized saver_keyed
      fun p hp => tooDear_fits hp).mpr fun t ht => ?_
    cases ht
  · by_contra hlate
    have hsame := ((Wallet.failed_request_unchanged hswap).1.mpr hlate).2.1
    rw [hnext] at hsame
    revert hsame
    decide +kernel

end QuantCore
