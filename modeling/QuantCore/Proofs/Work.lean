import QuantCore.Chain.Accept
import QuantCore.Proofs.Arith

/-!
# Headers with their work by one division

The long division behind a header's work goes through 256 bits, one after the
other. To compute with the model one uses the quotient it is equal to: what
follows repeats the way of a header into the index with that quotient in the
place of the division.
-/

namespace QuantCore

/-- `work_from_target`. -/
def U256.quickWork (target : U256) : U256 :=
  add (quotient (compl target) (add target (ofU64 1))) (ofU64 1)

theorem U256.workFromTarget_quick (target : U256) : workFromTarget target = quickWork target := by
  rw [workFromTarget, quickWork, div_eq_quotient]

namespace Chainstate

variable [Crypto]

def quickEntry (s : Chainstate) (h : BlockHeader) : BlockIndex :=
  match s.lookup h.prev with
  | some p =>
      { hash := h.hash, header := h, height := p.height + 1, prev := some h.prev
        seq := s.nextSeq
        chainwork := p.chainwork.add (U256.quickWork (U256.ofCompact h.bits))
        skip := s.ancestor h.prev (skipHeight (p.height + 1)) }
  | none =>
      { hash := h.hash, header := h, height := 0, prev := none, seq := s.nextSeq
        chainwork := U256.add {} (U256.quickWork (U256.ofCompact h.bits))
        skip := none }

def quickIndex (s : Chainstate) (h : BlockHeader) : Chainstate :=
  let b := s.quickEntry h
  let linked := { s with nextSeq := s.nextSeq + 1 }.linkChild b.prev b.hash
  { linked with index := linked.index.insert b.hash b }.raiseBestHeader b

theorem addIndex_quick (s : Chainstate) (h : BlockHeader) : s.addIndex h = s.quickIndex h := by
  have hentry : s.newEntry h = s.quickEntry h := by
    cases hp : s.lookup h.prev with
    | none => simp only [newEntry, quickEntry, hp, U256.workFromTarget_quick]
    | some p => simp only [newEntry, quickEntry, hp, U256.workFromTarget_quick]
  rw [addIndex, quickIndex, hentry]

def quickHeader (cfg : Config) (s : Chainstate) (h : BlockHeader) : Chainstate × HeaderResult :=
  let step := { s with tick := s.tick + 1 }
  match s.lookup h.hash with
  | some b => (step, if b.failed then .invalid "known-invalid" else .known h.hash)
  | none =>
      match s.lookup h.prev with
      | none => (step, .orphan)
      | some _ =>
          match s.checkHeader cfg h h.prev with
          | .error why => (step, .invalid why)
          | .ok () =>
              let s := step.quickIndex h
              ({ s with disk := { s.disk with headers := s.disk.headers ++ h.write } },
                .ok h.hash)

theorem acceptHeader_quick (cfg : Config) (s : Chainstate) (h : BlockHeader) :
    s.acceptHeader cfg h = s.quickHeader cfg h := by
  cases hh : s.lookup h.hash with
  | some b => simp only [acceptHeader, quickHeader, hh]
  | none =>
      cases hp : s.lookup h.prev with
      | none => simp only [acceptHeader, quickHeader, hh, hp]
      | some p =>
          cases hc : s.checkHeader cfg h h.prev with
          | error why => simp only [acceptHeader, quickHeader, hh, hp, hc]
          | ok u => simp only [acceptHeader, quickHeader, hh, hp, hc, addIndex_quick]

def quickBlock (cfg : Config) (s : Chainstate) (b : Block) (hasWitness : Bool) :
    Chainstate × Except String Bool :=
  match s.quickHeader cfg b.header with
  | (s, .invalid why) => (s, .error why)
  | (s, .orphan) => (s, .error "orphan")
  | (s, .ok idx) => s.receiveBody cfg idx b hasWitness
  | (s, .known idx) => s.receiveBody cfg idx b hasWitness

theorem receiveBlock_quick (cfg : Config) (s : Chainstate) (b : Block) (hasWitness : Bool) :
    s.receiveBlock cfg b hasWitness = s.quickBlock cfg b hasWitness := by
  have hq := s.acceptHeader_quick cfg b.header
  cases hr : s.quickHeader cfg b.header with
  | mk s' r =>
      rw [hr] at hq
      cases r with
      | ok idx => simp only [receiveBlock, quickBlock, hq, hr]
      | known idx => simp only [receiveBlock, quickBlock, hq, hr]
      | orphan => simp only [receiveBlock, quickBlock, hq, hr]
      | invalid why => simp only [receiveBlock, quickBlock, hq, hr]

/-! ## Start-up -/

def quickIndexHeader (s : Chainstate) (h : BlockHeader) : Chainstate :=
  if s.index.keys.isEmpty ∨ h.prev ∈ s.index then
    if h.hash ∈ s.index then s else s.quickIndex h
  else s

theorem indexHeader_quick : indexHeader = quickIndexHeader := by
  funext s h
  rw [indexHeader, quickIndexHeader, addIndex_quick]

def quickGenesis (cfg : Config) (s : Chainstate) : Chainstate :=
  if s.index.keys.isEmpty then
    let s := s.quickIndex cfg.params.genesis.header
    { s with disk := { s.disk with
        headers := s.disk.headers ++ cfg.params.genesis.header.write } }
  else s

theorem indexGenesis_quick (cfg : Config) (s : Chainstate) :
    s.indexGenesis cfg = s.quickGenesis cfg := by
  rw [indexGenesis, quickGenesis, addIndex_quick]

def quickLoadIndex (cfg : Config) (disk : Disk) (tick : Nat) : Except String Chainstate :=
  let hs := headersOnDisk disk
  if !hs.isEmpty ∧ (hs.headD default).hash ≠ cfg.params.genesisHash then
    .error "headers.dat belongs to a different network/genesis"
  else
    let s : Chainstate := { disk := truncateHeaders disk, tick }
    let s := (hs.foldl quickIndexHeader s).quickGenesis cfg
    let s := (records 44 s.disk.blockpos).foldl indexPosition s
    .ok (if (s.entry cfg.params.genesisHash).haveData then s
      else (s.storeBlock cfg cfg.params.genesisHash cfg.params.genesis true).1)

theorem loadIndex_quick (cfg : Config) (disk : Disk) (tick : Nat) :
    loadIndex cfg disk tick = quickLoadIndex cfg disk tick := by
  rw [loadIndex, quickLoadIndex, indexHeader_quick]
  simp only [indexGenesis_quick]

def quickLoad (cfg : Config) (disk : Disk) (tick : Nat) : Except String Chainstate :=
  match quickLoadIndex cfg disk tick with
  | .error e => .error e
  | .ok s =>
      match ((s.loadBase cfg).indexChainData.scanSnapshots cfg).loadTipState cfg with
      | .error e => .error e
      | .ok s =>
          let s := s.indexChainTxs cfg
          .ok { s with tick := s.tick + 1 }

theorem loadReady_quick (cfg : Config) (disk : Disk) (tick : Nat) :
    loadReady cfg disk tick = quickLoad cfg disk tick := by
  have hq := loadIndex_quick cfg disk tick
  cases hr : quickLoadIndex cfg disk tick with
  | error e =>
      rw [hr] at hq
      simp only [loadReady, quickLoad, hq, hr]
  | ok s =>
      rw [hr] at hq
      cases ht : ((s.loadBase cfg).indexChainData.scanSnapshots cfg).loadTipState cfg with
      | error e => simp only [loadReady, quickLoad, hq, hr, ht]
      | ok s' => simp only [loadReady, quickLoad, hq, hr, ht]

end Chainstate

end QuantCore
