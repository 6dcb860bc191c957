import QuantCore.Proofs.Script

/-!
# The tip determines the state

Two nodes with the same tip are in the same state, whatever they went through:
each is in the state of its tip's branch, and a block has one branch. A snapshot
is that state in bytes, one string for each.
-/

namespace QuantCore

open Codec Maps Forest

variable [Crypto] {net : Network} {known : Block → Prop}

namespace Chainstate

/-- Two nodes, each in the state of a branch, with the same tip. -/
theorem Content.same_state (hs : Sources net known) {s t : Chainstate}
    (hc : s.Content net known) (ht : t.Content net known) (htip : s.tip = t.tip) :
    s.height = t.height ∧ s.reader = t.reader := by
  obtain ⟨as, ha, -⟩ := hc.branch
  obtain ⟨bs, hb, -⟩ := ht.branch
  rw [← htip] at hb
  obtain ⟨hheight, -, hreader⟩ := ha.unique hs.free hs.genesis hb
  exact ⟨hheight, hreader⟩

omit [Crypto] in
theorem reader_ext {s t : Chainstate} (h : s.reader = t.reader) :
    fn s.utxo = fn t.utxo ∧ fn s.tokens = fn t.tokens ∧ fn s.pools = fn t.pools :=
  ⟨congrArg StateReader.coin h, congrArg StateReader.token h, congrArg StateReader.pool h⟩

/-- Any two runs on one network that end with the same tip end in the same state
and write the same bytes for it. -/
theorem state_of_tip (hs : Sources net known) {cfg₁ cfg₂ : Config}
    (hnet₁ : cfg₁.network = net) (hnet₂ : cfg₂.network = net) (hdisk₁ : Reliable cfg₁)
    (hdisk₂ : Reliable cfg₂) {o₁ o₂ : Offers} (ho₁ : ∀ b, o₁.Around net b → known b)
    (ho₂ : ∀ b, o₂.Around net b → known b) {ph₁ ph₂ : Phase} {s₁ s₂ : Chainstate}
    (h₁ : Reaches cfg₁ o₁ (Honest net known cfg₁ o₁) ph₁ s₁)
    (h₂ : Reaches cfg₂ o₂ (Honest net known cfg₂ o₂) ph₂ s₂) (htip : s₁.tip = s₂.tip) :
    fn s₁.utxo = fn s₂.utxo ∧ fn s₁.tokens = fn s₂.tokens ∧ fn s₁.pools = fn s₂.pools ∧
      s₁.serializeState = s₂.serializeState := by
  have hc₁ := (h₁.honest hs hnet₁ hdisk₁ ho₁).1
  have hc₂ := (h₂.honest hs hnet₂ hdisk₂ ho₂).1
  obtain ⟨hheight, hreader⟩ := hc₁.same_state hs hc₂ htip
  obtain ⟨hutxo, htokens, hpools⟩ := reader_ext hreader
  refine ⟨hutxo, htokens, hpools, ?_⟩
  rw [serializeState_eq_iff (hc₁.recorded h₁.fits) (hc₂.recorded h₂.fits)]
  exact ⟨htip, by rw [hheight], hreader⟩

/-- The state in bytes: it reads back, into any node, as the state it is of, and
two states have the same bytes exactly when they are the same. -/
theorem state_codec (hs : Sources net known) {cfg₁ cfg₂ : Config}
    (hnet₁ : cfg₁.network = net) (hnet₂ : cfg₂.network = net) {o₁ o₂ : Offers}
    (ho₁ : ∀ b, o₁.Around net b → known b) (ho₂ : ∀ b, o₂.Around net b → known b)
    {ph₁ ph₂ : Phase} {s₁ s₂ : Chainstate}
    (h₁ : Reaches cfg₁ o₁ (Orderly net known cfg₁ o₁) ph₁ s₁)
    (h₂ : Reaches cfg₂ o₂ (Orderly net known cfg₂ o₂) ph₂ s₂) :
    (∀ t : Chainstate, ∃ t' h, t.parseState s₁.serializeState = (t', some (s₁.tip, h)) ∧
      h.toNat = s₁.height ∧ fn t'.utxo = fn s₁.utxo ∧ fn t'.tokens = fn s₁.tokens ∧
      fn t'.pools = fn s₁.pools ∧ fn t'.byAddr = fn s₁.byAddr ∧ t'.supply = s₁.supply) ∧
    (s₁.serializeState = s₂.serializeState ↔
      s₁.tip = s₂.tip ∧ fn s₁.utxo = fn s₂.utxo ∧ fn s₁.tokens = fn s₂.tokens ∧
        fn s₁.pools = fn s₂.pools) := by
  have hc₁ := (h₁.orderly hs hnet₁ ho₁ fun _ _ hok => hok).1
  have hc₂ := (h₂.orderly hs hnet₂ ho₂ fun _ _ hok => hok).1
  have hr₁ := hc₁.recorded h₁.fits
  have hr₂ := hc₂.recorded h₂.fits
  refine ⟨fun t => ?_, ?_⟩
  · obtain ⟨t', hparse, hreader, hbyAddr, hsupply⟩ :=
      parseState_serializeState hr₁ hc₁.accounts t
    obtain ⟨bs, hb, -⟩ := hc₁.branch
    have hheight : (UInt64.ofNat s₁.height).toNat = s₁.height :=
      UInt64.toNat_ofNat_of_lt' (hb.height_lt.trans (by decide))
    obtain ⟨hutxo, htokens, hpools⟩ := reader_ext hreader
    exact ⟨t', _, hparse, hheight, hutxo, htokens, hpools, hbyAddr, hsupply⟩
  · rw [serializeState_eq_iff hr₁ hr₂]
    constructor
    · rintro ⟨htip, -, hreader⟩
      exact ⟨htip, reader_ext hreader⟩
    · rintro ⟨htip, hutxo, htokens, hpools⟩
      refine ⟨htip, by rw [(hc₁.same_state hs hc₂ htip).1], ?_⟩
      rw [Chainstate.reader, Chainstate.reader, StateReader.mk.injEq]
      exact ⟨hutxo, htokens, hpools⟩

end Chainstate

end QuantCore

namespace QuantCore.Chainstate

open Maps

attribute [local instance] stampCrypto

/-- Two runs to the first block, one of them through the files. -/
theorem reaches_both : ∃ s t : Chainstate, s.height = 1 ∧ s.tip = t.tip ∧
    Reaches (regtestWith quiet) firstOffer anyStep .idle s ∧
    Reaches (regtestWith quiet) firstOffer anyStep .idle t := by
  have hrun : (firstNode.bind fun s => secondNode.map fun t =>
      s.height == 1 && s.tip == t.tip) = some true := by
    decide +kernel
  obtain ⟨s, hs, hrun⟩ := Option.bind_eq_some_iff.mp hrun
  obtain ⟨t, ht, hrun⟩ := Option.map_eq_some_iff.mp hrun
  obtain ⟨hheight, htip⟩ := Bool.and_eq_true_iff.mp hrun
  exact ⟨s, t, eq_of_beq hheight, eq_of_beq htip, reaches_firstNode hs, reaches_secondNode ht⟩

theorem state_of_tip_restarted : ∃ s t : Chainstate, s.height = 1 ∧ fn s.utxo = fn t.utxo ∧
    fn s.tokens = fn t.tokens ∧ fn s.pools = fn t.pools ∧
      s.serializeState = t.serializeState := by
  obtain ⟨s, t, hheight, htip, hs, ht⟩ := reaches_both
  refine ⟨s, t, hheight, ?_⟩
  exact state_of_tip sources_first rfl rfl reliable_quiet reliable_quiet (fun _ h => h)
    (fun _ h => h) (hs.mono fun _ _ _ _ h => absurd h id) (ht.mono fun _ _ _ _ h => absurd h id)
    htip

theorem state_codec_restarted : ∃ s t : Chainstate, s.height = 1 ∧
    (∀ u : Chainstate, ∃ u' h, u.parseState s.serializeState = (u', some (s.tip, h)) ∧
      h.toNat = s.height ∧ fn u'.utxo = fn s.utxo ∧ fn u'.tokens = fn s.tokens ∧
      fn u'.pools = fn s.pools ∧ fn u'.byAddr = fn s.byAddr ∧ u'.supply = s.supply) ∧
    (s.serializeState = t.serializeState ↔ s.tip = t.tip ∧ fn s.utxo = fn t.utxo ∧
      fn s.tokens = fn t.tokens ∧ fn s.pools = fn t.pools) := by
  obtain ⟨s, t, hheight, -, hs, ht⟩ := reaches_both
  have hok : ∀ (ph : Phase) (s : Chainstate), anyStep ph s →
      Orderly .regtest (firstOffer.Around .regtest) (regtestWith quiet) firstOffer ph s :=
    fun _ _ _ => ⟨fun _ h => absurd h id, fun _ _ _ h => absurd h id⟩
  refine ⟨s, t, hheight, ?_⟩
  exact state_codec sources_first rfl rfl (fun _ h => h) (fun _ h => h) (hs.mono hok)
    (ht.mono hok)

/-- What the node counts is not what it writes. -/
def recounts (s : Chainstate) : Bool := (parseState {} s.serializeState).1.supply != s.supply

def recounted : { s : Option Chainstate // s = forgedNode ∧ s.any recounts = true } :=
  ⟨forgedNode, rfl, by decide +kernel⟩

/-- A snapshot that lists a coin twice has the node count it twice; written out
again, it is there once. -/
theorem state_codec_recounts : ¬ ∀ (cfg : Config) (o : Offers) (ph : Phase) (s : Chainstate),
    Reliable cfg → Reaches cfg o anyStep ph s →
      ∀ t : Chainstate, (t.parseState s.serializeState).1.supply = s.supply := by
  intro hall
  obtain ⟨x, hx, hrun⟩ := recounted
  rw [hx] at hrun
  cases hr : forgedNode with
  | none =>
      rw [hr] at hrun
      cases hrun
  | some s =>
      rw [hr] at hrun
      have hsame := hall _ _ _ s reliable_quiet (reaches_forgedNode hr) {}
      rw [Option.any_some, recounts, hsame, bne_self_eq_false] at hrun
      cases hrun

end QuantCore.Chainstate
