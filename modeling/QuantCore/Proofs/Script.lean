import QuantCore.Proofs.Run

/-!
# Runs that can be computed

A run is a derivation; to show that a node can get somewhere, one computes the
way there. The functions below take a node from step to step and check on the
way what a run asks for, so that where they arrive is reached. The division
behind a header's work is the slow part: for a line of headers of one difficulty
it is done once.

At the end is a node of the test network `regtest` on which a snapshot can be
tried: a line of headers, one of which commits to a snapshot nobody should have
made.
-/

namespace QuantCore

open Codec Maps

variable [Crypto]

/-! ## Blocks whose names differ -/

/-- No two of the blocks have a hash in common but for what they have in common. -/
def collisionFree (l : List Block) : Bool :=
  l.all fun a => l.all fun b =>
    (a.header.hash != b.header.hash || a.header == b.header) &&
      (a.computeMerkleRoot != b.computeMerkleRoot ||
        a.txs.map Transaction.txid == b.txs.map Transaction.txid) &&
      (a.computeWitnessRoot != b.computeWitnessRoot ||
        a.txs.map Transaction.witness == b.txs.map Transaction.witness) &&
      a.txs.all fun s => b.txs.all fun t => s.txid != t.txid || s.core == t.core

theorem collisionless_of {l : List Block} (h : collisionFree l = true) :
    Collisionless (· ∈ l) := by
  have hpair : ∀ a ∈ l, ∀ b ∈ l, (a.header.hash = b.header.hash → a.header = b.header) ∧
      (a.computeMerkleRoot = b.computeMerkleRoot →
        a.txs.map Transaction.txid = b.txs.map Transaction.txid) ∧
      (a.computeWitnessRoot = b.computeWitnessRoot →
        a.txs.map Transaction.witness = b.txs.map Transaction.witness) ∧
      ∀ s ∈ a.txs, ∀ t ∈ b.txs, s.txid = t.txid → s.core = t.core := by
    intro a ha b hb
    have hab := List.all_eq_true.mp (List.all_eq_true.mp h a ha) b hb
    simp only [Bool.and_eq_true, Bool.or_eq_true, bne_iff_ne, beq_iff_eq, List.all_eq_true,
      ← imp_iff_not_or] at hab
    exact ⟨hab.1.1.1, hab.1.1.2, hab.1.2, hab.2⟩
  exact {
    header := fun a b ha hb => (hpair a ha b hb).1
    merkle := fun a b ha hb => (hpair a ha b hb).2.1
    witness := fun a b ha hb => (hpair a ha b hb).2.2.1
    txid := fun a b s t ha hb hs ht => (hpair a ha b hb).2.2.2 s hs t ht }

theorem Collisionless.mono {p q : Block → Prop} (h : Collisionless q) (hpq : ∀ b, p b → q b) :
    Collisionless p where
  header := fun a b ha hb => h.header a b (hpq a ha) (hpq b hb)
  merkle := fun a b ha hb => h.merkle a b (hpq a ha) (hpq b hb)
  witness := fun a b ha hb => h.witness a b (hpq a ha) (hpq b hb)
  txid := fun a b s t ha hb => h.txid a b s t (hpq a ha) (hpq b hb)

namespace Chainstate

/-! ## A header of known work -/

/-- `newEntry` for a header whose work is `w`. -/
def newEntryOf (w : U256) (s : Chainstate) (h : BlockHeader) : BlockIndex :=
  match s.lookup h.prev with
  | some p =>
      { hash := h.hash, header := h, height := p.height + 1, prev := some h.prev
        seq := s.nextSeq, chainwork := p.chainwork.add w
        skip := s.ancestor h.prev (skipHeight (p.height + 1)) }
  | none =>
      { hash := h.hash, header := h, height := 0, prev := none, seq := s.nextSeq
        chainwork := U256.add {} w, skip := none }

def addIndexOf (w : U256) (s : Chainstate) (h : BlockHeader) : Chainstate :=
  let b := s.newEntryOf w h
  let linked := { s with nextSeq := s.nextSeq + 1 }.linkChild b.prev b.hash
  { linked with index := linked.index.insert b.hash b }.raiseBestHeader b

theorem addIndex_of {w : U256} (s : Chainstate) {h : BlockHeader}
    (hw : U256.workFromTarget (U256.ofCompact h.bits) = w) :
    s.addIndex h = s.addIndexOf w h := by
  have hn : s.newEntry h = s.newEntryOf w h := by
    cases hp : s.lookup h.prev with
    | none => simp only [newEntry, newEntryOf, hp, hw]
    | some p => simp only [newEntry, newEntryOf, hp, hw]
  rw [addIndex, addIndexOf, hn]

theorem addIndexOf_disk {w : U256} (s : Chainstate) {h : BlockHeader}
    (hw : U256.workFromTarget (U256.ofCompact h.bits) = w) :
    (s.addIndexOf w h).disk = s.disk := by
  rw [← addIndex_of s hw, addIndex_eq]

/-- Where `accept_header` leaves the node, for a header whose work is `w`. -/
def headerOf (w : U256) (cfg : Config) (s : Chainstate) (h : BlockHeader) : Chainstate :=
  match s.lookup h.hash, s.lookup h.prev with
  | none, some _ =>
      match s.checkHeader cfg h h.prev with
      | .error _ => s.ticked
      | .ok () =>
          { s.ticked.addIndexOf w h with
            disk := { s.disk with headers := s.disk.headers ++ h.write } }
  | _, _ => s.ticked

theorem acceptHeader_of {w : U256} (cfg : Config) (s : Chainstate) {h : BlockHeader}
    (hw : U256.workFromTarget (U256.ofCompact h.bits) = w) :
    (s.acceptHeader cfg h).1 = s.headerOf w cfg h := by
  rw [acceptHeader, headerOf]
  cases s.lookup h.hash with
  | some b => rfl
  | none =>
      cases s.lookup h.prev with
      | none => rfl
      | some p =>
          simp only []
          cases s.checkHeader cfg h h.prev with
          | error e => rfl
          | ok u =>
              simp only [addIndex_of _ hw]
              rw [addIndexOf_disk _ hw]
              rfl

/-! ## From step to step -/

omit [Crypto] in
/-- `Fits`, to be computed. -/
def fits (s : Chainstate) : Bool :=
  s.index.keys.length < 2 ^ 63 && s.utxo.keys.length < 2 ^ 64 && s.tokens.keys.length < 2 ^ 64 &&
    s.pools.keys.length < 2 ^ 64 && s.disk.blocks.length < 2 ^ 64

omit [Crypto] in
theorem fits_of {s : Chainstate} (h : s.fits = true) : s.Fits := by
  simp only [fits, Bool.and_eq_true, decide_eq_true_eq] at h
  exact ⟨h.1.1.1.1, h.1.1.1.2, h.1.1.2, h.1.2, h.2⟩

omit [Crypto] in
/-- A state that does not fit is none. -/
def fitting (s : Chainstate) : Option Chainstate := if s.fits then some s else none

omit [Crypto] in
theorem fitting_some {s s' : Chainstate} (h : s.fitting = some s') : s' = s ∧ s.Fits := by
  rw [fitting] at h
  split at h
  · next hf =>
      cases h
      exact ⟨rfl, fits_of hf⟩
  · cases h

/-- A call, until the node is idle again. -/
def settle (cfg : Config) : Nat → Phase → Chainstate → Option Chainstate
  | 0, _, _ => none
  | k + 1, ph, s =>
      if ph = .idle then some s
      else (activateStep cfg ph s).2.fitting.bind (settle cfg k (activateStep cfg ph s).1)

/-- The headers `f 1`, ..., each as the node before it asks, all of work `w`. -/
def feed (w : U256) (cfg : Config) (f : Nat → Chainstate → BlockHeader) :
    Nat → Chainstate → Option Chainstate
  | 0, s => some s
  | k + 1, s => (feed w cfg f k s).bind fun s => (s.headerOf w cfg (f (k + 1) s)).fitting

/-- A node that starts on an empty directory, settled. -/
def boot (cfg : Config) : Option Chainstate :=
  (loadReady cfg {} 0).toOption.bind fun s =>
    s.fitting.bind fun s => settle cfg 4 (.choose s.tip activateGuard) s

/-- A block, and what comes of it. -/
def take (cfg : Config) (b : Block) (s : Chainstate) : Option Chainstate :=
  (enter (s.receiveBlock cfg b true)).2.fitting.bind
    (settle cfg 8 (enter (s.receiveBlock cfg b true)).1)

/-- A start on the files as they are. -/
def reboot (cfg : Config) (s : Chainstate) : Option Chainstate :=
  (loadReady cfg s.disk s.tick).toOption.bind fun s =>
    s.fitting.bind fun s => settle cfg 8 (.choose s.tip activateGuard) s

variable {cfg : Config} {o : Offers} {s s' : Chainstate}

theorem reaches_settle {k : Nat} {ph : Phase} (h : Reaches cfg o anyStep ph s)
    (hr : settle cfg k ph s = some s') : Reaches cfg o anyStep .idle s' := by
  induction k generalizing ph s with
  | zero => cases hr
  | succ k ih =>
      rw [settle] at hr
      split at hr
      · next hidle =>
          cases hr
          exact hidle ▸ h
      · next hne =>
          obtain ⟨s₁, hs₁, hr⟩ := Option.bind_eq_some_iff.mp hr
          obtain ⟨rfl, hfit⟩ := fitting_some hs₁
          exact ih (.step h trivial (.activate hne) hfit) hr

theorem reaches_boot (hr : boot cfg = some s') : Reaches cfg o anyStep .idle s' := by
  rw [boot] at hr
  cases hl : loadReady cfg {} 0 with
  | error e =>
      rw [hl] at hr
      cases hr
  | ok s =>
      rw [hl] at hr
      obtain ⟨s₁, hs₁, hr⟩ := Option.bind_eq_some_iff.mp hr
      cases hs₁
      obtain ⟨s₂, hs₂, hsettle⟩ := Option.bind_eq_some_iff.mp hr
      obtain ⟨rfl, hfit⟩ := fitting_some hs₂
      exact reaches_settle (.start hl hfit) hsettle

theorem reaches_take {b : Block} (hb : o.block b) (h : Reaches cfg o anyStep .idle s)
    (hr : take cfg b s = some s') : Reaches cfg o anyStep .idle s' := by
  obtain ⟨s₁, hs₁, hr⟩ := Option.bind_eq_some_iff.mp hr
  obtain ⟨rfl, hfit⟩ := fitting_some hs₁
  exact reaches_settle (.step h trivial (.block (w := true) hb) hfit) hr

theorem reaches_reboot (h : Reaches cfg o anyStep .idle s) (hr : reboot cfg s = some s') :
    Reaches cfg o anyStep .idle s' := by
  rw [reboot] at hr
  cases hl : loadReady cfg s.disk s.tick with
  | error e =>
      rw [hl] at hr
      cases hr
  | ok t =>
      rw [hl] at hr
      obtain ⟨s₁, hs₁, hr⟩ := Option.bind_eq_some_iff.mp hr
      cases hs₁
      obtain ⟨s₂, hs₂, hsettle⟩ := Option.bind_eq_some_iff.mp hr
      obtain ⟨rfl, hfit⟩ := fitting_some hs₂
      exact reaches_settle (.step h trivial (.restart hl) hfit) hsettle

theorem reaches_feed {w : U256} {f : Nat → Chainstate → BlockHeader}
    (hw : ∀ k s, U256.workFromTarget (U256.ofCompact (f k s).bits) = w)
    (ho : ∀ k s, ∃ b, o.block b ∧ b.header = f k s) {k : Nat}
    (h : Reaches cfg o anyStep .idle s) (hr : feed w cfg f k s = some s') :
    Reaches cfg o anyStep .idle s' := by
  induction k generalizing s' with
  | zero =>
      cases hr
      exact h
  | succ k ih =>
      obtain ⟨s₁, hs₁, hr⟩ := Option.bind_eq_some_iff.mp hr
      obtain ⟨rfl, hfit⟩ := fitting_some hr
      obtain ⟨b, hb, hhead⟩ := ho (k + 1) s₁
      rw [← acceptHeader_of cfg s₁ (hw _ _)] at hfit ⊢
      rw [← hhead] at hfit ⊢
      exact .step (ih hs₁) trivial (.header hb) hfit

end Chainstate

end QuantCore

namespace QuantCore.Chainstate

attribute [local instance] stampCrypto

/-! ## A line of headers that commits to a snapshot -/

def regtestWith (fault : Nat → IoOp → Bool) : Config :=
  ⟨.regtest, false, ⟨fault, fun _ => 1790200000⟩⟩

/-- Whatever anybody comes up with. -/
def anyOffers : Offers := ⟨fun _ => True, fun _ => True⟩

/-- A coinbase of block 51, worth one. -/
def lateCoinbase : Transaction := { lockHeight := 51, outs := [⟨1, qntAsset, 0⟩] }

/-- A snapshot of block 50 that has the coin of block 51 already, and twice. -/
def forgedSnapshot (block : Hash256) : Snapshot where
  block
  height := 50
  coins := List.replicate 2 (⟨lateCoinbase.txid, 0⟩, ⟨⟨1, qntAsset, 0⟩, 51, true⟩)
  tokens := []
  pools := []

/-- The block at height 50 of the best header's branch. -/
def snapshotBlock (s : Chainstate) : Hash256 :=
  ((s.bestHeader.bind fun b => s.ancestor b 50)).getD 0

def forged (s : Chainstate) : Bytes := (forgedSnapshot s.snapshotBlock).write

/-- The header of height `n` on top of the best one: block 51 holds the coinbase
above, and header 55 commits to the snapshot. -/
def forgedHeader (n : Nat) (s : Chainstate) : BlockHeader :=
  let best := s.bestHeader.getD 0
  let txs := if n = 51 then [lateCoinbase] else []
  let b : Block := { txs }
  { prev := best, time := (s.entry best).header.time + 120
    bits := (limitBelow 255).toCompact
    merkleRoot := b.computeMerkleRoot, witnessRoot := b.computeWitnessRoot
    stateCommit := if n = 55 then stateHash s.forged else 0 }

theorem forgedHeader_work (n : Nat) (s : Chainstate) :
    U256.workFromTarget (U256.ofCompact (forgedHeader n s).bits) = ⟨2, 0, 0, 0⟩ := by
  have hbits : (forgedHeader n s).bits = (limitBelow 255).toCompact := rfl
  rw [hbits]
  decide +kernel

/-- A fresh node that knows the line. -/
def forgedLine (fault : Nat → IoOp → Bool) : Option Chainstate :=
  (boot (regtestWith fault)).bind (feed ⟨2, 0, 0, 0⟩ (regtestWith fault) forgedHeader 55)

theorem reaches_forgedLine {fault : Nat → IoOp → Bool} {s : Chainstate}
    (h : forgedLine fault = some s) : Reaches (regtestWith fault) anyOffers anyStep .idle s := by
  obtain ⟨s₀, h₀, h⟩ := Option.bind_eq_some_iff.mp h
  exact reaches_feed forgedHeader_work (fun k s => ⟨{ header := forgedHeader k s }, trivial, rfl⟩)
    (reaches_boot h₀) h

/-- Nothing fails. -/
def quiet (_ : Nat) (_ : IoOp) : Bool := false

/-- The node once it has taken the snapshot over. -/
def forgedNode : Option Chainstate :=
  (forgedLine quiet).bind fun s =>
    (enter (s.receiveSnapshot (regtestWith quiet) s.forged)).2.fitting.bind
      (settle (regtestWith quiet) 4 (enter (s.receiveSnapshot (regtestWith quiet) s.forged)).1)

theorem reaches_forgedNode {s : Chainstate} (h : forgedNode = some s) :
    Reaches (regtestWith quiet) anyOffers anyStep .idle s := by
  obtain ⟨s₀, h₀, h⟩ := Option.bind_eq_some_iff.mp h
  obtain ⟨s₁, h₁, h⟩ := Option.bind_eq_some_iff.mp h
  obtain ⟨rfl, hfit⟩ := fitting_some h₁
  exact reaches_settle (.step (reaches_forgedLine h₀) trivial (.snapshot trivial) hfit) h

theorem reliable_quiet : Reliable (regtestWith quiet) := fun _ _ => rfl

/-! ## A node with one block -/

/-- Nothing but one block is on offer. -/
def loneOffer (b : Block) : Offers := ⟨(· = b), fun _ => False⟩

theorem around_lone {b x : Block} (hb : b.core = b) (h : (loneOffer b).Around .regtest x) :
    x ∈ [regtestGenesis, b] := by
  rcases h with rfl | ⟨w, hw⟩
  · exact List.mem_cons_self
  · cases w with
    | true => exact List.mem_cons_of_mem _ (List.mem_singleton.mpr hw)
    | false =>
        obtain ⟨full, hfull, rfl⟩ := hw
        rw [show full = b from hfull, hb]
        exact List.mem_cons_of_mem _ (List.mem_singleton.mpr rfl)

theorem sources_lone {b : Block} (hb : b.core = b) (hl : b.Limits)
    (hfree : collisionFree [regtestGenesis, b] = true) :
    Sources .regtest ((loneOffer b).Around .regtest) := by
  refine sources_around ((collisionless_of hfree).mono fun x hx => around_lone hb hx) ?_
  rintro x rfl
  exact hl

/-- Where no snapshot is offered every step is in order. -/
theorem orderly_lone (b : Block) (known : Block → Prop) (cfg : Config) (ph : Phase)
    (s : Chainstate) : Orderly .regtest known cfg (loneOffer b) ph s :=
  ⟨fun _ h => absurd h id, fun _ _ _ h => absurd h id⟩

theorem reaches_lone {b : Block} {s : Chainstate}
    (h : ((boot (regtestWith quiet)).bind (take (regtestWith quiet) b)) = some s) :
    Reaches (regtestWith quiet) (loneOffer b) anyStep .idle s := by
  obtain ⟨s₀, h₀, h⟩ := Option.bind_eq_some_iff.mp h
  exact reaches_take rfl (reaches_boot h₀) h

/-- The first block above genesis. -/
def firstBlock : Block :=
  let b : Block := { txs := [{ lockHeight := 1, outs := [⟨1, qntAsset, 0⟩] }] }
  { b with header :=
      { prev := regtestGenesis.header.hash, time := 1790121720, bits := (limitBelow 255).toCompact
        merkleRoot := b.computeMerkleRoot, witnessRoot := b.computeWitnessRoot } }

/-- Nothing but the first block is on offer. -/
def firstOffer : Offers := ⟨(· = firstBlock), fun _ => False⟩

theorem limits_first : firstBlock.Limits := by decide +kernel

theorem sources_first : Sources .regtest (firstOffer.Around .regtest) :=
  sources_lone rfl limits_first (by decide +kernel)

def firstNode : Option Chainstate :=
  (boot (regtestWith quiet)).bind (take (regtestWith quiet) firstBlock)

theorem reaches_firstNode {s : Chainstate} (h : firstNode = some s) :
    Reaches (regtestWith quiet) firstOffer anyStep .idle s :=
  reaches_lone h

/-- The same node, flushed and started again. -/
def secondNode : Option Chainstate :=
  firstNode.bind fun s => (s.flush (regtestWith quiet)).fitting.bind (reboot (regtestWith quiet))

theorem reaches_secondNode {s : Chainstate} (h : secondNode = some s) :
    Reaches (regtestWith quiet) firstOffer anyStep .idle s := by
  obtain ⟨s₀, h₀, h⟩ := Option.bind_eq_some_iff.mp h
  obtain ⟨s₁, h₁, h⟩ := Option.bind_eq_some_iff.mp h
  obtain ⟨rfl, hfit⟩ := fitting_some h₁
  exact reaches_reboot (.step (reaches_firstNode h₀) trivial .flush hfit) h

end QuantCore.Chainstate
