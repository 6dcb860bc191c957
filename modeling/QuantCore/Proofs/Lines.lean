import QuantCore.Proofs.Script
import QuantCore.Proofs.Supply
import QuantCore.Proofs.Work

/-!
# Nodes on a line of blocks

Where a list of blocks is on offer, and no snapshot, what a run rests on can be
computed from the list: that the hashes tell the blocks apart, and the ids of the
tokens they create. A node that takes the blocks one after the other, and comes to
rest after each, has made an orderly run.

The line at the end is one of the test network: a token is created and gets a pool,
and QNT are swapped there.
-/

namespace QuantCore

open Codec Maps

variable [Crypto] {net : Network}

namespace Chainstate

/-! ## The blocks on offer -/

/-- Nothing but the blocks of a list is on offer. -/
def lineOffer (bs : List Block) : Offers := ⟨(· ∈ bs), fun _ => False⟩

/-- The blocks a node on the list can meet. -/
def lineBlocks (net : Network) (bs : List Block) : List Block :=
  (paramsFor net).genesis :: (bs ++ bs.map Block.core)

theorem around_line {bs : List Block} {b : Block} (h : (lineOffer bs).Around net b) :
    b ∈ lineBlocks net bs := by
  rcases h with rfl | ⟨w, hw⟩
  · exact List.mem_cons_self
  · refine List.mem_cons_of_mem _ ?_
    rw [List.mem_append]
    cases w with
    | true => exact .inl hw
    | false =>
        obtain ⟨full, hfull, rfl⟩ := hw
        exact .inr (List.mem_map.mpr ⟨full, hfull, rfl⟩)

theorem sources_line {bs : List Block} (hl : ∀ b ∈ bs, b.Limits)
    (hfree : collisionFree (lineBlocks net bs) = true) :
    Sources net ((lineOffer bs).Around net) :=
  sources_around ((collisionless_of hfree).mono fun _ h => around_line h) hl

/-- Where no snapshot is offered every step is in order. -/
theorem orderly_line (bs : List Block) (known : Block → Prop) (cfg : Config) (ph : Phase)
    (s : Chainstate) : Orderly net known cfg (lineOffer bs) ph s :=
  ⟨fun _ h => absurd h id, fun _ _ _ h => absurd h id⟩

/-! ## The ids of their assets -/

/-- The ids a transaction can give to tokens. -/
def tokenIds (t : Transaction) : List Hash256 :=
  (List.range t.ops.length).map fun i => tokenId (t.ins.headD default).prev (UInt32.ofNat i)

/-- `IdsApart`, to be computed, for the tokens `ids`. -/
def apartIds (ids : List Hash256) : Bool :=
  ids.all fun x => x != qntAsset && poolShareId x != qntAsset && ids.all fun y =>
    poolShareId x != y && (poolShareId x != poolShareId y || x == y)

theorem mintedId_line {bs : List Block} {x : Hash256}
    (h : MintedId ((lineOffer bs).Around net) x) :
    x ∈ ((lineBlocks net bs).flatMap Block.txs).flatMap tokenIds := by
  obtain ⟨b, hb, t, ht, i, c, hop, rfl⟩ := h
  rw [List.mem_flatMap]
  refine ⟨t, List.mem_flatMap.mpr ⟨b, around_line hb, ht⟩, ?_⟩
  obtain ⟨hi, -⟩ := List.getElem?_eq_some_iff.mp hop
  exact List.mem_map.mpr ⟨i, List.mem_range.mpr hi, rfl⟩

theorem idsApart_line {bs : List Block}
    (h : apartIds (((lineBlocks net bs).flatMap Block.txs).flatMap tokenIds) = true) :
    IdsApart ((lineOffer bs).Around net) := by
  simp only [apartIds, List.all_eq_true, Bool.and_eq_true, Bool.or_eq_true, bne_iff_ne,
    beq_iff_eq] at h
  exact {
    token := fun x hx => (h x (mintedId_line hx)).1.1
    share := fun x hx => (h x (mintedId_line hx)).1.2
    kinds := fun x y hx hy => ((h x (mintedId_line hx)).2 y (mintedId_line hy)).1
    shares := fun x y hx hy he =>
      ((h x (mintedId_line hx)).2 y (mintedId_line hy)).2.resolve_left fun hne => hne he }

theorem fits_line {bs : List Block} (h : ∀ b ∈ lineBlocks net bs, b.CoinbaseFits) {n : Nat}
    {tip : Hash256} {branch : List Block} {L : StateReader}
    (hb : Branch (paramsFor net) ((lineOffer bs).Around net) n tip branch L) :
    ∀ b ∈ branch, b.CoinbaseFits := by
  intro b hmem
  rcases hb.around b hmem with rfl | ⟨x, hx, rfl⟩
  · exact h _ List.mem_cons_self
  · exact x.coinbaseFits_core.mpr (h x (around_line hx))

/-! ## Block after block -/

/-- The blocks of a list, and what comes of them. -/
def takeLine (cfg : Config) : List Block → Chainstate → Option Chainstate
  | [], s => some s
  | b :: rest, s =>
      (enter (s.quickBlock cfg b true)).2.fitting.bind fun t =>
        (settle cfg 8 (enter (s.quickBlock cfg b true)).1 t).bind (takeLine cfg rest)

theorem reaches_takeLine {cfg : Config} {bs : List Block} {o : Offers} {s s' : Chainstate}
    (hb : ∀ b ∈ bs, o.block b) (h : Reaches cfg o anyStep .idle s)
    (hr : takeLine cfg bs s = some s') : Reaches cfg o anyStep .idle s' := by
  induction bs generalizing s with
  | nil =>
      cases hr
      exact h
  | cons b rest ih =>
      rw [takeLine, ← receiveBlock_quick] at hr
      obtain ⟨s₁, hs₁, hr⟩ := Option.bind_eq_some_iff.mp hr
      obtain ⟨rfl, hfit⟩ := fitting_some hs₁
      obtain ⟨s₂, hs₂, hr⟩ := Option.bind_eq_some_iff.mp hr
      refine ih (fun x hx => hb x (List.mem_cons_of_mem b hx)) ?_ hr
      exact reaches_settle (.step h trivial (.block (w := true) (hb b List.mem_cons_self)) hfit) hs₂

/-- `boot`, dividing once. -/
def quickBoot (cfg : Config) : Option Chainstate :=
  (quickLoad cfg {} 0).toOption.bind fun s =>
    s.fitting.bind fun s => settle cfg 4 (.choose s.tip activateGuard) s

theorem boot_quick (cfg : Config) : boot cfg = quickBoot cfg := by
  rw [boot, quickBoot, loadReady_quick]

end Chainstate

end QuantCore

namespace QuantCore.Chainstate

attribute [local instance] blendCrypto

/-! ## A market -/

def marketConfig : Config := ⟨.test, false, ⟨fun _ _ => false, fun _ => 1792900000⟩⟩

def marketKey : Bytes := List.replicate falconPkBytes 0

/-- What the miner of the first block is paid. -/
def marketReward : TxOut := ⟨50000000000, qntAsset, addressHash marketKey⟩

def marketCoinbase (height : Nat) : Transaction :=
  { lockHeight := UInt64.ofNat height, outs := if height = 1 then [marketReward] else [] }

def marketToken : Hash256 := tokenId ⟨(marketCoinbase 1).txid, 0⟩ 0

/-- The reward pays for a token and for a pool with half of its supply. -/
def openMarket : Transaction where
  ins := [⟨⟨(marketCoinbase 1).txid, 0⟩⟩]
  outs := [⟨39900000000, qntAsset, addressHash marketKey⟩,
    ⟨500000, marketToken, addressHash marketKey⟩,
    ⟨70000000, poolShareId marketToken, addressHash marketKey⟩]
  ops := [.createToken ⟨[81, 81], [81], 2, 1000000, []⟩,
    .poolCreate ⟨marketToken, 10000000000, 500000, 70000000⟩]
  witness := [.falcon marketKey [1]]

/-- Some of the change buys tokens. -/
def buyThere : Transaction where
  ins := [⟨⟨openMarket.txid, 0⟩⟩]
  outs := [⟨38800000000, qntAsset, addressHash marketKey⟩,
    ⟨45000, marketToken, addressHash marketKey⟩]
  ops := [.swap ⟨marketToken, false, 1000000000, 45000⟩]
  witness := [.falcon marketKey [1]]

def marketTxs (height : Nat) : List Transaction :=
  if height = 11 then [openMarket] else if height = 12 then [buyThere] else []

/-- The reward matures for ten blocks. -/
def marketLine : Nat → Block
  | 0 => (paramsFor .test).genesis
  | n + 1 =>
      let b : Block := { txs := marketCoinbase (n + 1) :: marketTxs (n + 1) }
      { b with header :=
          { prev := (marketLine n).header.hash
            time := 1792800000 + 120 * UInt64.ofNat (n + 1)
            bits := if n < 3 then 490733568 else 490733567
            merkleRoot := b.computeMerkleRoot, witnessRoot := b.computeWitnessRoot } }

def marketBlocks : List Block := (List.range 12).map fun n => marketLine (n + 1)

theorem sources_market : Sources .test ((lineOffer marketBlocks).Around .test) :=
  sources_line (by decide +kernel) (by decide +kernel)

theorem idsApart_market : IdsApart ((lineOffer marketBlocks).Around .test) :=
  idsApart_line (by decide +kernel)

theorem fits_market : ∀ b ∈ lineBlocks .test marketBlocks, b.CoinbaseFits := by decide +kernel

/-- The node once it has taken all blocks of the line. -/
def marketNode : { r : Option Chainstate //
    r = (boot marketConfig).bind (takeLine marketConfig marketBlocks) ∧
      r.any (fun s => s.height == 12 && (s.pools.lookup marketToken).any fun p =>
        p.tok == 455000) = true } :=
  ⟨(quickBoot marketConfig).bind (takeLine marketConfig marketBlocks), by rw [boot_quick], by
    decide +kernel⟩

theorem reaches_market : ∃ (s : Chainstate) (p : Pool), s.height = 12 ∧
    s.pools.lookup marketToken = some p ∧ p.tok = 455000 ∧
    Reaches marketConfig (lineOffer marketBlocks) anyStep .idle s := by
  obtain ⟨r, hr, hrun⟩ := marketNode
  obtain ⟨s, hs, hrun⟩ := (Option.any_eq_true _ _).mp hrun
  obtain ⟨hheight, hpool⟩ := Bool.and_eq_true_iff.mp hrun
  obtain ⟨p, hp, htok⟩ := (Option.any_eq_true _ _).mp hpool
  rw [hr] at hs
  obtain ⟨s₀, h₀, htake⟩ := Option.bind_eq_some_iff.mp hs
  exact ⟨s, p, beq_iff_eq.mp hheight, hp, beq_iff_eq.mp htok,
    reaches_takeLine (fun _ h => h) (reaches_boot h₀) htake⟩

end QuantCore.Chainstate
