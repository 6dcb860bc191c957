import QuantCore.Chain.Queries
import QuantCore.Proofs.Lines
import QuantCore.Proofs.Supply
import QuantCore.Proofs.Tip

/-!
# The derived indexes

`by_addr_` and `supply_` are redundant: the one says whose the coins are, the
other how much QNT there is. In every state a node gets into the first is right.
The second is right modulo 2^64, and so exactly right as long as the QNT there is
can be written in 64 bits: where no coinbase of the branch is worth 2^64 units,
it never comes near.
-/

namespace QuantCore

open Maps Totals

/-! ## Sums in 64 bits -/

/-- A total of amounts is the exact total, modulo 2^64. -/
theorem total_toNat {κ ν : Type} [DecidableEq κ] (f : ν → Amount) (m : Map κ ν) :
    total f m = UInt64.ofNat (total (fun v => (f v).toNat) m) := by
  rw [total, total]
  induction pairs m with
  | nil => rfl
  | cons e l ih =>
      rw [List.map_cons, List.sum_cons, ih, List.map_cons, List.sum_cons, UInt64.ofNat_add,
        UInt64.ofNat_toNat]

/-- The exact total, as what the entries weigh. -/
theorem weighs_total {κ ν : Type} [DecidableEq κ] (f : ν → Nat) (m : Map κ ν) :
    Weighs (fun _ v => (f v : Int)) (fn m) (total f m : Nat) := by
  have hsum : ((total f m : Nat) : Int) = ((pairs m).map fun e => (f e.2 : Int)).sum := by
    rw [total]
    induction pairs m with
    | nil => rfl
    | cons e l ih => rw [List.map_cons, List.sum_cons, Nat.cast_add, ih, List.map_cons, List.sum_cons]
  rw [hsum]
  exact weighs_map _ m

theorem Coin.qnt_toNat (c : Coin) : (c.qnt.toNat : Int) = c.worth qntAsset := by
  rw [Coin.qnt, Coin.worth]
  by_cases h : c.out.isQnt = true
  · rw [if_pos h, if_pos (isQnt_iff.mp h)]
  · rw [if_neg h, if_neg fun ha => h (isQnt_iff.mpr ha)]
    rfl

/-! ## Consistent indexes -/

namespace Chainstate

/-- The QNT there is, as a number without bound. -/
def circulating (s : Chainstate) : Nat :=
  total (fun c => c.qnt.toNat) s.utxo + total (fun p => p.qnt.toNat) s.pools

/-- Both indexes say of the coins and the pools what they should, and no lookup
of the coins of an address fails. -/
structure Consistent (s : Chainstate) : Prop where
  owned : ∀ a o, (∃ l, s.byAddr.lookup a = some l ∧ o ∈ l) ↔
    ∃ c, s.utxo.lookup o = some c ∧ c.out.addr = a
  nonempty : ∀ a l, s.byAddr.lookup a = some l → l.Nonempty
  supply : s.supply.toNat = s.circulating
  served : ∀ enum : Finset OutPoint → List OutPoint, (∀ l, ∀ o ∈ enum l, o ∈ l) →
    ∀ a, ∃ coins, s.coinsForAddress enum a = some coins ∧
      ∀ e ∈ coins, s.utxo.lookup e.1 = some e.2 ∧ e.2.out.addr = a

/-- The loop over outpoints that all have a coin. -/
theorem coins_found {s : Chainstate} {a : Hash256} {os : List OutPoint}
    (h : ∀ o ∈ os, ∃ c, s.utxo.lookup o = some c ∧ c.out.addr = a) :
    ∃ coins, (os.mapM fun o => (s.utxo.lookup o).map fun c => (o, c)) = some coins ∧
      ∀ e ∈ coins, s.utxo.lookup e.1 = some e.2 ∧ e.2.out.addr = a := by
  induction os with
  | nil => exact ⟨[], rfl, fun e he => absurd he List.not_mem_nil⟩
  | cons o os ih =>
      rw [List.forall_mem_cons] at h
      obtain ⟨c, hc, haddr⟩ := h.1
      obtain ⟨coins, hcoins, hall⟩ := ih h.2
      refine ⟨(o, c) :: coins, ?_, List.forall_mem_cons.mpr ⟨⟨hc, haddr⟩, hall⟩⟩
      rw [List.mapM_cons, hc, hcoins]
      rfl

theorem Accounts.served {s : Chainstate} (h : s.Accounts)
    {enum : Finset OutPoint → List OutPoint} (henum : ∀ l, ∀ o ∈ enum l, o ∈ l) (a : Hash256) :
    ∃ coins, s.coinsForAddress enum a = some coins ∧
      ∀ e ∈ coins, s.utxo.lookup e.1 = some e.2 ∧ e.2.out.addr = a := by
  rw [coinsForAddress]
  cases ha : s.byAddr.lookup a with
  | none => exact ⟨[], rfl, fun e he => absurd he List.not_mem_nil⟩
  | some l => exact coins_found fun o ho => (h.owned a o).mp ⟨l, ha, henum l o ho⟩

/-- The books are exact once the QNT there is fits 64 bits. -/
theorem Accounts.consistent {s : Chainstate} (h : s.Accounts) (hfit : s.circulating < 2 ^ 64) :
    s.Consistent where
  owned := h.owned
  nonempty := h.nonempty
  supply := by
    rw [h.supply, total_toNat Coin.qnt, total_toNat Pool.qnt, ← UInt64.ofNat_add,
      UInt64.toNat_ofNat', ← circulating, Nat.mod_eq_of_lt hfit]
  served := fun _ henum a => h.served henum a

/-- Only what the maps denote matters. -/
theorem Consistent.congr {s t : Chainstate} (h : s.Consistent) (hr : t.reader = s.reader)
    (hb : fn t.byAddr = fn s.byAddr) (hs : t.supply = s.supply) : t.Consistent := by
  have hu : ∀ o, t.utxo.lookup o = s.utxo.lookup o := congrFun (congrArg StateReader.coin hr)
  have ha : ∀ a, t.byAddr.lookup a = s.byAddr.lookup a := congrFun hb
  refine ⟨fun a o => ?_, fun a l hl => ?_, ?_, fun enum henum a => ?_⟩
  · rw [ha, hu]
    exact h.owned a o
  · rw [ha] at hl
    exact h.nonempty a l hl
  · rw [hs, h.supply, circulating, circulating,
      total_congr _ (show fn t.utxo = fn s.utxo from congrArg StateReader.coin hr),
      total_congr _ (show fn t.pools = fn s.pools from congrArg StateReader.pool hr)]
  · obtain ⟨coins, hcoins, hall⟩ := h.served enum henum a
    refine ⟨coins, ?_, fun e he => by rw [hu]; exact hall e he⟩
    simp only [coinsForAddress, ha, hu]
    exact hcoins

section

variable [Crypto] {net : Network} {known : Block → Prop}

/-- The QNT there is, where every coinbase of the branch fits. -/
theorem Content.circulating_le (hs : Sources net known) (hi : IdsApart known) {s : Chainstate}
    (h : s.Content net known) {bs : List Block} {L : StateReader}
    (hb : Branch (paramsFor net) known s.height s.tip bs L)
    (hfit : ∀ b ∈ bs, b.CoinbaseFits) (hissued : IssuedWithin s.height) :
    s.circulating ≤ emitted s.height := by
  obtain ⟨bs', hb', -⟩ := h.branch
  obtain ⟨-, rfl, rfl⟩ := hb.unique hs.free hs.genesis hb'
  obtain ⟨q, hnet, hle⟩ := hb.qnt_le hs hi hfit hissued
  obtain ⟨c, p, hc, hp, rfl⟩ := hnet.qnt hi (hb.net_zero hs).2.1
  have hcoins := (weighs_total (fun c : Coin => c.qnt.toNat) s.utxo).congr
    (u := fun _ => Coin.worth qntAsset) fun _ c _ => c.qnt_toNat
  rw [hc.unique hcoins, hp.unique (weighs_total (fun p : Pool => p.qnt.toNat) s.pools)] at hle
  rw [circulating]
  omega

/-- The indexes of a node are right in every state of a run whose branch has no
coinbase worth 2^64 units, and so are those of a node that has cleared its state
or read that state's bytes. -/
theorem indexes_consistent (hs : Sources net known) (hi : IdsApart known) {cfg : Config}
    (hnet : cfg.network = net) {o : Offers} (ho : ∀ b, o.Around net b → known b) {ph : Phase}
    {s : Chainstate} (h : Reaches cfg o (Orderly net known cfg o) ph s)
    (hissued : IssuedWithin s.height)
    (hfit : ∀ bs L, Branch (paramsFor net) known s.height s.tip bs L → ∀ b ∈ bs, b.CoinbaseFits) :
    s.Consistent ∧ s.clearState.Consistent ∧
      ∀ t : Chainstate, ∃ t', t.parseState s.serializeState =
        (t', some (s.tip, UInt64.ofNat s.height)) ∧ t'.Consistent := by
  have hc := (h.orderly hs hnet ho fun _ _ hok => hok).1
  obtain ⟨bs, hb, -⟩ := hc.branch
  have hle := hc.circulating_le hs hi hb (hfit bs _ hb) hissued
  have hmax := hissued.emitted_le hb.height_lt
  have hmoney : maxMoney.toNat < 2 ^ 64 := maxMoney.toNat_lt
  have hcons := hc.accounts.consistent (by omega)
  refine ⟨hcons, (accounts_clear s).consistent (Nat.two_pow_pos 64), fun t => ?_⟩
  obtain ⟨t', hparse, hreader, hbyAddr, hsupply⟩ :=
    parseState_serializeState (hc.recorded h.fits) hc.accounts t
  exact ⟨t', hparse, hcons.congr hreader hbyAddr hsupply⟩

end

end Chainstate

end QuantCore

namespace QuantCore.Chainstate

attribute [local instance] blendCrypto

/-- The node with a market has its indexes right. -/
theorem indexes_consistent_market : ∃ (s : Chainstate) (p : Pool), s.height = 12 ∧
    s.pools.lookup marketToken = some p ∧ p.tok = 455000 ∧ s.Consistent ∧
    s.clearState.Consistent ∧ ∀ t : Chainstate, ∃ t', t.parseState s.serializeState =
      (t', some (s.tip, UInt64.ofNat s.height)) ∧ t'.Consistent := by
  obtain ⟨s, p, hheight, hp, htok, hs⟩ := reaches_market
  have hissued : IssuedWithin 12 := by decide +kernel
  exact ⟨s, p, hheight, hp, htok, indexes_consistent sources_market idsApart_market rfl
    (fun _ h => h) (hs.mono fun ph s _ => orderly_line marketBlocks _ _ ph s)
    (hheight ▸ hissued) fun _ _ hb => fits_line fits_market hb⟩

end QuantCore.Chainstate

namespace QuantCore.Chainstate

attribute [local instance] stampCrypto

/-! ## A coinbase worth 2^64 units -/

/-- The first block, with two outputs that come to 2^64 units. -/
def greedyBlock : Block :=
  let b : Block := { txs := [{
    lockHeight := 1
    outs := [⟨9000000000000000000, qntAsset, 0⟩, ⟨9446744073709551616, qntAsset, 0⟩] }] }
  { b with header :=
      { prev := regtestGenesis.header.hash, time := 1790121720, bits := (limitBelow 255).toCompact
        merkleRoot := b.computeMerkleRoot, witnessRoot := b.computeWitnessRoot } }

def greedyNode : Option Chainstate :=
  (boot (regtestWith quiet)).bind (takeLine (regtestWith quiet) [greedyBlock])

theorem sources_greedy : Sources .regtest ((lineOffer [greedyBlock]).Around .regtest) :=
  sources_line (by decide +kernel) (by decide +kernel)

theorem idsApart_greedy : IdsApart ((lineOffer [greedyBlock]).Around .regtest) :=
  idsApart_line (by decide +kernel)

/-- The node takes the block, and counts none of its coins. -/
theorem reaches_greedy : ∃ s : Chainstate, s.height = 1 ∧ s.supply = 0 ∧
    s.circulating = 2 ^ 64 ∧
    Reaches (regtestWith quiet) (lineOffer [greedyBlock]) (Orderly .regtest
      ((lineOffer [greedyBlock]).Around .regtest) (regtestWith quiet) (lineOffer [greedyBlock]))
      .idle s := by
  have hrun : (greedyNode.map fun s =>
      s.height == 1 && s.supply == 0 && s.circulating == 2 ^ 64) = some true := by
    decide +kernel
  obtain ⟨s, hs, hrun⟩ := Option.map_eq_some_iff.mp hrun
  simp only [Bool.and_eq_true, beq_iff_eq] at hrun
  obtain ⟨s₀, h₀, htake⟩ := Option.bind_eq_some_iff.mp hs
  exact ⟨s, hrun.1.1, hrun.1.2, hrun.2, (reaches_takeLine (fun _ h => h) (reaches_boot h₀)
    htake).mono fun ph s _ => orderly_line [greedyBlock] _ _ ph s⟩

theorem indexes_overflow : ¬ ∀ (net : Network) (known : Block → Prop) (cfg : Config) (o : Offers)
    (ph : Phase) (s : Chainstate), Sources net known → IdsApart known → cfg.network = net →
    (∀ b, o.Around net b → known b) → Reaches cfg o (Orderly net known cfg o) ph s →
    IssuedWithin s.height → s.Consistent := by
  intro hall
  obtain ⟨s, hheight, hsupply, hcirculating, hs⟩ := reaches_greedy
  have hissued : IssuedWithin 1 := by decide
  have hcons := hall .regtest _ _ _ _ s sources_greedy idsApart_greedy rfl (fun _ h => h) hs
    (hheight ▸ hissued)
  have hsum := hcons.supply
  rw [hsupply, hcirculating] at hsum
  exact absurd hsum (by decide)

end QuantCore.Chainstate
