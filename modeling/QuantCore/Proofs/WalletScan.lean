import QuantCore.Wallet.Blocks

/-!
# What a transaction does to a wallet

The two loops of `process_tx` read the coins as they go, erase some and add
others, and may lengthen the key list. Which outputs are ours is settled by the
keys and the payments shown so far alone, each at its turn. Given that, the
outcome is a function of the coins held before: an input contributes if its coin
is there, an output if it is ours, and the coins afterwards are those before,
less the inputs, overridden by our outputs.
-/

namespace QuantCore

open Maps

/-! ## Keys only grow -/

namespace Wallet

/-- A later state of the same wallet: the addresses it watches are those it did,
and addresses of its keys. -/
structure Grown (w w' : Wallet) : Prop where
  keyAddr : w'.keyAddr = w.keyAddr
  network : w'.network = w.network
  keeps : ∀ a, w.isMine a = true → w'.isMine a = true
  only : ∀ a, w'.isMine a = true → w.isMine a = true ∨ ∃ i, a = w.keyAddr i

theorem Grown.refl (w : Wallet) : Grown w w := ⟨rfl, rfl, fun _ h => h, fun _ h => .inl h⟩

theorem Grown.trans {w₁ w₂ w₃ : Wallet} (h₁ : Grown w₁ w₂) (h₂ : Grown w₂ w₃) :
    Grown w₁ w₃ where
  keyAddr := h₂.keyAddr.trans h₁.keyAddr
  network := h₂.network.trans h₁.network
  keeps := fun a h => h₂.keeps a (h₁.keeps a h)
  only := by
    intro a h
    rcases h₂.only a h with h | ⟨i, h⟩
    · exact h₁.only a h
    · right
      exact ⟨i, by rw [h, h₁.keyAddr]⟩

/-- The watched addresses depend on the index of the keys only. -/
theorem grown_of_byAddr {w w' : Wallet} (hk : w'.keyAddr = w.keyAddr)
    (hn : w'.network = w.network) (hb : w'.byAddr = w.byAddr) : Grown w w' where
  keyAddr := hk
  network := hn
  keeps := fun a h => by rwa [isMine, hb]
  only := fun a h => by
    rw [isMine, hb] at h
    exact .inl h

theorem deriveNext_grown (w : Wallet) : Grown w w.deriveNext where
  keyAddr := rfl
  network := rfl
  keeps := by
    intro a h
    rw [isMine, deriveNext, lookup_insert_ite]
    split
    · rfl
    · exact h
  only := by
    intro a h
    rw [isMine, deriveNext, lookup_insert_ite] at h
    split at h
    · next he => exact .inr ⟨_, he⟩
    · exact .inl h

theorem deriveUntil_grown (count : UInt32) (w : Wallet) : Grown w (deriveUntil count w) := by
  rw [deriveUntil]
  induction count.toNat - w.keys.length generalizing w with
  | zero => exact Grown.refl w
  | succ n ih =>
      rw [Function.iterate_succ_apply]
      exact (deriveNext_grown w).trans (ih w.deriveNext)

theorem deriveUntil_coins (count : UInt32) (w : Wallet) :
    (deriveUntil count w).coins = w.coins ∧ (deriveUntil count w).history = w.history := by
  rw [deriveUntil]
  induction count.toNat - w.keys.length generalizing w with
  | zero => exact ⟨rfl, rfl⟩
  | succ n ih =>
      rw [Function.iterate_succ_apply]
      exact ih w.deriveNext

/-- The keys may grow under a coin that was added. -/
theorem deriveUntil_spec {w w₁ : Wallet} {coins : UMap OutPoint WalletCoin} (count : UInt32)
    (hg : Grown w w₁) (hc : w₁.coins = coins) (hh : w₁.history = w.history) :
    Grown w (deriveUntil count w₁) ∧ (deriveUntil count w₁).coins = coins ∧
      (deriveUntil count w₁).history = w.history := by
  obtain ⟨hc', hh'⟩ := deriveUntil_coins count w₁
  exact ⟨hg.trans (deriveUntil_grown count w₁), hc'.trans hc, hh'.trans hh⟩

theorem addCoin_spec (w : Wallet) (c : WalletCoin) :
    Grown w (w.addCoin c) ∧ (w.addCoin c).coins = w.coins.insert c.op c ∧
      (w.addCoin c).history = w.history := by
  rw [addCoin]
  split
  · exact ⟨grown_of_byAddr rfl rfl rfl, rfl, rfl⟩
  · exact deriveUntil_spec _ (grown_of_byAddr rfl rfl rfl) rfl rfl

/-! ## What the keys make of a payment -/

/-- The same keys, of which as many have been used. -/
structure SameKeys (w w' : Wallet) : Prop where
  keyAddr : w'.keyAddr = w.keyAddr
  network : w'.network = w.network
  keys : w'.keys = w.keys
  nextIndex : w'.nextIndex = w.nextIndex
  byAddr : w'.byAddr = w.byAddr

namespace SameKeys

variable {w w' w'' : Wallet}

theorem refl (w : Wallet) : SameKeys w w := ⟨rfl, rfl, rfl, rfl, rfl⟩

theorem trans (h : SameKeys w w') (h' : SameKeys w' w'') : SameKeys w w'' :=
  ⟨h'.keyAddr.trans h.keyAddr, h'.network.trans h.network, h'.keys.trans h.keys,
    h'.nextIndex.trans h.nextIndex, h'.byAddr.trans h.byAddr⟩

theorem isMine (h : SameKeys w w') (a : Hash256) : w'.isMine a = w.isMine a := by
  rw [Wallet.isMine, Wallet.isMine, h.byAddr]

theorem deriveNext (h : SameKeys w w') : SameKeys w.deriveNext w'.deriveNext := by
  refine ⟨h.keyAddr, h.network, ?_, h.nextIndex, ?_⟩
  · simp only [Wallet.deriveNext, h.keys, h.keyAddr]
  · simp only [Wallet.deriveNext, h.keys, h.keyAddr, h.byAddr]

theorem deriveUntil (h : SameKeys w w') (count : UInt32) :
    SameKeys (deriveUntil count w) (deriveUntil count w') := by
  rw [Wallet.deriveUntil, Wallet.deriveUntil, h.keys]
  induction count.toNat - w.keys.length generalizing w w' with
  | zero => exact h
  | succ n ih =>
      rw [Function.iterate_succ_apply, Function.iterate_succ_apply]
      exact ih h.deriveNext

/-- What a coin does to the keys depends on the address it is at. -/
theorem addCoin (h : SameKeys w w') {c c' : WalletCoin} (hc : c'.out.addr = c.out.addr) :
    SameKeys (w.addCoin c) (w'.addCoin c') := by
  have hl : w'.byAddr.lookup c'.out.addr = w.byAddr.lookup c.out.addr := by rw [hc, h.byAddr]
  simp only [Wallet.addCoin, hl]
  cases w.byAddr.lookup c.out.addr with
  | none => exact ⟨h.keyAddr, h.network, h.keys, h.nextIndex, h.byAddr⟩
  | some i =>
      simp only [h.keys, h.nextIndex]
      refine SameKeys.deriveUntil ?_ _
      exact ⟨h.keyAddr, h.network, rfl, rfl, h.byAddr⟩

end SameKeys

/-- A payment as the keys see it: if it is to an address that is watched, the key
list may get longer. -/
def watch (w : Wallet) (o : TxOut) : Wallet :=
  if w.isMine o.addr then w.addCoin ⟨default, o, 0, false, false⟩ else w

/-- The keys after these payments, one by one. -/
def shown (w : Wallet) (outs : List TxOut) : Wallet := outs.foldl watch w

theorem shown_append (w : Wallet) (outs outs' : List TxOut) :
    w.shown (outs ++ outs') = (w.shown outs).shown outs' := List.foldl_append

theorem watch_grown (w : Wallet) (o : TxOut) : Grown w (w.watch o) := by
  rw [watch]
  split
  · exact (addCoin_spec w _).1
  · exact Grown.refl w

theorem shown_grown (w : Wallet) (outs : List TxOut) : Grown w (w.shown outs) := by
  induction outs generalizing w with
  | nil => exact Grown.refl w
  | cons o outs ih => exact (watch_grown w o).trans (ih _)

theorem SameKeys.watch {w w' : Wallet} (h : SameKeys w w') (o : TxOut) :
    SameKeys (w.watch o) (w'.watch o) := by
  rw [Wallet.watch, Wallet.watch, h.isMine]
  split
  · exact h.addCoin rfl
  · exact h

theorem SameKeys.shown {w w' : Wallet} (h : SameKeys w w') (outs : List TxOut) :
    SameKeys (w.shown outs) (w'.shown outs) := by
  induction outs generalizing w w' with
  | nil => exact h
  | cons o outs ih => exact ih (h.watch o)

end Wallet

/-! ## The effect of a transaction -/

/-- The coins a transaction makes of the outputs that are ours: `own` tells by the
transaction's id and the output's number. -/
def ownOuts [Crypto] (own : Hash256 → Nat → Bool) (height : Int) (tx : Transaction) :
    List (OutPoint × WalletCoin) :=
  (tx.outs.zipIdx.filter fun o => own tx.txid o.2).map fun o =>
    (⟨tx.txid, UInt32.ofNat o.2⟩,
      ⟨⟨tx.txid, UInt32.ofNat o.2⟩, o.1, height, tx.isCoinbase, false⟩)

/-- An input, over the coins held before the transaction. -/
def effectIn (coins : OutPoint → Option WalletCoin) (e : TxEffect) (i : TxIn) : TxEffect :=
  match coins i.prev with
  | none => { e with allOurs := false }
  | some c =>
      { e with
        any := true
        delta := e.delta.add c.out.asset (-int64 c.out.value)
        qntIn := if c.out.isQnt then e.qntIn + c.out.value else e.qntIn }

def effectOut (text : Hash256 → Bytes) (own : Nat → Bool) (e : TxEffect) (o : TxOut × Nat) :
    TxEffect :=
  if own o.2 then { e with any := true, delta := e.delta.add o.1.asset (int64 o.1.value) }
  else { e with counterparty := if e.counterparty.isEmpty then text o.1.addr else e.counterparty }

/-- What `process_tx` finds, over the coins held before the transaction. -/
def txEffect [Crypto] (text : Hash256 → Bytes) (own : Hash256 → Nat → Bool)
    (coins : OutPoint → Option WalletCoin) (tx : Transaction) : TxEffect :=
  tx.outs.zipIdx.foldl (effectOut text (own tx.txid))
    (tx.ins.foldl (effectIn coins) { allOurs := !tx.isCoinbase })

theorem effectIn_congr {coins coins' : OutPoint → Option WalletCoin} {ins : List TxIn}
    (h : ∀ i ∈ ins, coins i.prev = coins' i.prev) (e : TxEffect) :
    ins.foldl (effectIn coins) e = ins.foldl (effectIn coins') e :=
  List.foldl_ext _ _ e fun e i hi => by rw [effectIn, effectIn, h i hi]

variable [Crypto]

theorem txEffect_congr {text : Hash256 → Bytes} {own : Hash256 → Nat → Bool}
    {coins coins' : OutPoint → Option WalletCoin} {tx : Transaction}
    (h : ∀ i ∈ tx.ins, coins i.prev = coins' i.prev) :
    txEffect text own coins tx = txEffect text own coins' tx := by
  rw [txEffect, effectIn_congr h, txEffect]

/-- Only the outputs that are there can be ours. -/
theorem txEffect_own_congr {text : Hash256 → Bytes} {own own' : Hash256 → Nat → Bool}
    {coins : OutPoint → Option WalletCoin} {tx : Transaction}
    (h : ∀ k < tx.outs.length, own tx.txid k = own' tx.txid k) :
    txEffect text own coins tx = txEffect text own' coins tx := by
  rw [txEffect, txEffect]
  refine List.foldl_ext _ _ _ fun e o ho => ?_
  rw [effectOut, effectOut, h o.2 (List.snd_lt_of_mem_zipIdx ho)]

theorem ownOuts_own_congr {own own' : Hash256 → Nat → Bool} {height : Int} {tx : Transaction}
    (h : ∀ k < tx.outs.length, own tx.txid k = own' tx.txid k) :
    ownOuts own height tx = ownOuts own' height tx := by
  rw [ownOuts, ownOuts]
  congr 1
  exact List.filter_congr fun o ho => h o.2 (List.snd_lt_of_mem_zipIdx ho)

namespace Wallet

omit [Crypto] in
theorem takeInputs_scan {height : Int} (hh : 0 ≤ height) {ins : List TxIn} {w : Wallet}
    (hnd : (ins.map TxIn.prev).Nodup) (e : TxEffect) :
    ∃ coins, ins.foldl (takeInput height) (w, e) =
        ({ w with coins }, ins.foldl (effectIn (fn w.coins)) e) ∧
      fn coins = fun o => if o ∈ ins.map TxIn.prev then none else w.coins.lookup o := by
  induction ins generalizing w e with
  | nil => exact ⟨w.coins, rfl, funext fun o => (if_neg List.not_mem_nil).symm⟩
  | cons i ins ih =>
      rw [List.map_cons, List.nodup_cons] at hnd
      have hstep : ∃ coins, takeInput height (w, e) i =
          ({ w with coins }, effectIn (fn w.coins) e i) ∧
          fn coins = Function.update (fn w.coins) i.prev none := by
        have hfn : fn w.coins i.prev = w.coins.lookup i.prev := rfl
        rw [takeInput, effectIn, hfn]
        cases hc : w.coins.lookup i.prev with
        | none =>
            refine ⟨w.coins, rfl, ?_⟩
            rw [← hc]
            exact (Function.update_eq_self i.prev (fn w.coins)).symm
        | some c =>
            have hneg : ¬ height < 0 := by omega
            simp only [hneg, if_false]
            exact ⟨w.coins.erase i.prev, rfl, fn_erase w.coins i.prev⟩
      obtain ⟨coins, hrun, hcoins⟩ := hstep
      obtain ⟨coins', hrun', hcoins'⟩ :=
        ih (w := { w with coins }) hnd.2 (effectIn (fn w.coins) e i)
      refine ⟨coins', ?_, ?_⟩
      · rw [List.foldl_cons, hrun, hrun', List.foldl_cons]
        congr 1
        refine effectIn_congr (fun j hj => ?_) _
        have hne : j.prev ≠ i.prev := fun he => hnd.1 (he ▸ List.mem_map_of_mem hj)
        show fn coins j.prev = _
        rw [hcoins, Function.update_of_ne hne]
      · rw [hcoins']
        funext o
        show (if o ∈ ins.map TxIn.prev then none else fn coins o) = _
        rw [hcoins, Function.update_apply, List.map_cons]
        by_cases ho : o = i.prev
        · simp [ho]
        · simp [ho]
          rfl

/-! ## Whose an output is, at its turn -/

/-- Of these outputs, numbered from `k`, the ones that `own` says are ours are the
ones at an address that is watched when their turn comes. -/
def OwnsOuts (own : Nat → Bool) (w : Wallet) (k : Nat) (outs : List TxOut) : Prop :=
  ∀ before o after, outs = before ++ o :: after →
    (w.shown before).isMine o.addr = own (k + before.length)

omit [Crypto] in
theorem OwnsOuts.head {own : Nat → Bool} {w : Wallet} {k : Nat} {o : TxOut} {outs : List TxOut}
    (h : OwnsOuts own w k (o :: outs)) : w.isMine o.addr = own k := h [] o outs rfl

omit [Crypto] in
theorem OwnsOuts.tail {own : Nat → Bool} {w : Wallet} {k : Nat} {o : TxOut} {outs : List TxOut}
    (h : OwnsOuts own w k (o :: outs)) : OwnsOuts own (w.watch o) (k + 1) outs := by
  intro before o' after houts
  have hturn := h (o :: before) o' after (by rw [houts, List.cons_append])
  rw [List.length_cons] at hturn
  rw [show k + 1 + before.length = k + (before.length + 1) by omega]
  exact hturn

omit [Crypto] in
theorem OwnsOuts.sameKeys {own : Nat → Bool} {w w' : Wallet} {k : Nat} {outs : List TxOut}
    (h : OwnsOuts own w k outs) (hk : SameKeys w w') : OwnsOuts own w' k outs :=
  fun before o after houts => ((hk.shown before).isMine _).trans (h before o after houts)

omit [Crypto] in
theorem effectOut_mine {text : Hash256 → Bytes} {own : Nat → Bool} {e : TxEffect}
    {o : TxOut × Nat} (h : own o.2 = true) : effectOut text own e o =
      { e with any := true, delta := e.delta.add o.1.asset (int64 o.1.value) } := by
  rw [effectOut, if_pos h]

omit [Crypto] in
theorem effectOut_foreign {text : Hash256 → Bytes} {own : Nat → Bool} {e : TxEffect}
    {o : TxOut × Nat} (h : own o.2 = false) : effectOut text own e o =
      { e with counterparty :=
          if e.counterparty.isEmpty then text o.1.addr else e.counterparty } := by
  rw [effectOut, if_neg (by simp [h])]

variable {txid : Hash256} {height : Int} {coinbase : Bool}

theorem takeOutput_mine {w : Wallet} {e : TxEffect} {o : TxOut × Nat}
    (h : w.isMine o.1.addr = true) : takeOutput txid height coinbase (w, e) o =
      (w.addCoin ⟨⟨txid, UInt32.ofNat o.2⟩, o.1, height, coinbase, false⟩,
        { e with any := true, delta := e.delta.add o.1.asset (int64 o.1.value) }) := by
  rw [takeOutput, if_pos h]

theorem takeOutput_foreign {w : Wallet} {e : TxEffect} {o : TxOut × Nat}
    (h : w.isMine o.1.addr = false) : takeOutput txid height coinbase (w, e) o =
      (w, { e with counterparty :=
        if e.counterparty.isEmpty then w.addressString o.1.addr else e.counterparty }) := by
  rw [takeOutput, if_neg (by simp [h])]

/-- The addresses an output text is made from do not change. -/
theorem addressString_grown {w w' : Wallet} (hg : Grown w w') :
    w'.addressString = w.addressString := by
  funext a
  rw [addressString, addressString, params, params, hg.network]

theorem takeOutputs_scan {own : Nat → Bool} {outs : List TxOut} {k : Nat} {w : Wallet}
    (ho : OwnsOuts own w k outs) (e : TxEffect) :
    SameKeys (w.shown outs)
      ((outs.zipIdx k).foldl (takeOutput txid height coinbase) (w, e)).1 ∧
    ((outs.zipIdx k).foldl (takeOutput txid height coinbase) (w, e)).1.history = w.history ∧
    fn ((outs.zipIdx k).foldl (takeOutput txid height coinbase) (w, e)).1.coins =
      updateAll (fn w.coins) (((outs.zipIdx k).filter fun o => own o.2).map fun o =>
        (⟨txid, UInt32.ofNat o.2⟩, ⟨⟨txid, UInt32.ofNat o.2⟩, o.1, height, coinbase, false⟩)) ∧
    ((outs.zipIdx k).foldl (takeOutput txid height coinbase) (w, e)).2 =
      (outs.zipIdx k).foldl (effectOut w.addressString own) e := by
  induction outs generalizing k w e with
  | nil => exact ⟨SameKeys.refl w, rfl, rfl, rfl⟩
  | cons o outs ih =>
      have hmine := ho.head
      have hshown : w.shown (o :: outs) = (w.watch o).shown outs := rfl
      have htail := ho.tail
      rw [List.zipIdx_cons, List.foldl_cons, List.foldl_cons, hshown]
      cases hown : own k with
      | true =>
          rw [hown] at hmine
          have hfilter : ((o, k) :: outs.zipIdx (k + 1)).filter (fun o => own o.2) =
              (o, k) :: (outs.zipIdx (k + 1)).filter fun o => own o.2 :=
            List.filter_cons_of_pos hown
          rw [hfilter, takeOutput_mine hmine, effectOut_mine hown, List.map_cons]
          generalize hc : (⟨⟨txid, UInt32.ofNat (o, k).2⟩, (o, k).1, height, coinbase, false⟩ :
            WalletCoin) = c
          have hop : c.op = ⟨txid, UInt32.ofNat k⟩ := by rw [← hc]
          have haddr : c.out.addr = o.addr := by rw [← hc]
          have hkeys : SameKeys (w.watch o) (w.addCoin c) := by
            rw [watch, if_pos hmine]
            exact (SameKeys.refl w).addCoin haddr
          obtain ⟨hg, hcoins, hhist⟩ := addCoin_spec w c
          obtain ⟨hkeys', hhist', hcoins', heff⟩ := ih (htail.sameKeys hkeys)
            { e with any := true, delta := e.delta.add o.asset (int64 o.value) }
          refine ⟨(hkeys.shown outs).trans hkeys', hhist'.trans hhist, ?_, ?_⟩
          · rw [hcoins', hcoins, fn_insert, hop]
            rfl
          · rw [heff, addressString_grown hg]
      | false =>
          rw [hown] at hmine
          have hfilter : ((o, k) :: outs.zipIdx (k + 1)).filter (fun o => own o.2) =
              (outs.zipIdx (k + 1)).filter fun o => own o.2 :=
            List.filter_cons_of_neg (by simp [hown])
          have hwatch : w.watch o = w := by
            rw [watch, if_neg (by simp [hmine])]
          rw [hwatch] at htail
          rw [hfilter, takeOutput_foreign hmine, effectOut_foreign hown, hwatch]
          exact ih htail _

/-- Both loops at once. -/
theorem scanTx_spec {own : Hash256 → Nat → Bool} {w : Wallet} {tx : Transaction} {height : Int}
    (hh : 0 ≤ height) (hnd : (tx.ins.map TxIn.prev).Nodup)
    (ho : OwnsOuts (own tx.txid) w 0 tx.outs) :
    SameKeys (w.shown tx.outs) (w.scanTx tx height).1 ∧
    (w.scanTx tx height).1.history = w.history ∧
    fn (w.scanTx tx height).1.coins =
      updateAll (fun o => if o ∈ tx.ins.map TxIn.prev then none else w.coins.lookup o)
        (ownOuts own height tx) ∧
    (w.scanTx tx height).2 = txEffect w.addressString own (fn w.coins) tx := by
  obtain ⟨coins, hins, hcoins⟩ :=
    takeInputs_scan (w := w) hh hnd { allOurs := !tx.isCoinbase }
  have hkeys : SameKeys w { w with coins } := ⟨rfl, rfl, rfl, rfl, rfl⟩
  obtain ⟨hkeys', hhist, hcoins', heff⟩ := takeOutputs_scan (ho.sameKeys hkeys)
    (tx.ins.foldl (effectIn (fn w.coins)) { allOurs := !tx.isCoinbase })
  rw [scanTx, hins]
  refine ⟨(hkeys.shown tx.outs).trans hkeys', hhist, ?_, ?_⟩
  · rw [hcoins']
    show updateAll (fn coins) _ = _
    rw [hcoins]
    rfl
  · rw [heff]
    rfl

end Wallet

end QuantCore
