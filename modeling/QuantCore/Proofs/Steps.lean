import QuantCore.Chain.Machine
import QuantCore.Proofs.Grow

/-!
# What one step can do

One inversion lemma for each entry point of the node: the states it can leave
behind, with the conditions that led there. Every invariant of the node is
carried over a step by these lemmas and not by unfolding the entry points.
-/

namespace QuantCore

open Maps Forest

variable [Crypto]

namespace Chainstate

/-! ## Headers and blocks -/

theorem acceptHeader_cases {cfg : Config} {s s' : Chainstate} {h : BlockHeader}
    {r : HeaderResult} (hr : s.acceptHeader cfg h = (s', r)) :
    (s' = s.ticked ∧
      ((r = .known h.hash ∧ h.hash ∈ s.index ∧ (s.entry h.hash).failed = false) ∨
        r = .orphan ∨ ∃ why, r = .invalid why)) ∨
    (r = .ok h.hash ∧ h.hash ∉ s.index ∧ h.prev ∈ s.index ∧
      s.checkHeader cfg h h.prev = .ok () ∧
      s' = { s.ticked.addIndex h with
        disk := { s.disk with headers := s.disk.headers ++ h.write } }) := by
  rw [acceptHeader] at hr
  cases hl : s.lookup h.hash with
  | some b =>
      rw [hl] at hr
      cases hr
      refine .inl ⟨rfl, ?_⟩
      split
      · exact .inr (.inr ⟨_, rfl⟩)
      · next hf =>
          refine .inl ⟨rfl, mem_iff_exists.mpr ⟨b, hl⟩, ?_⟩
          rw [entry, show s.index.lookup h.hash = some b from hl]
          simpa using hf
  | none =>
      rw [hl] at hr
      simp only [] at hr
      cases hp : s.lookup h.prev with
      | none =>
          rw [hp] at hr
          cases hr
          exact .inl ⟨rfl, .inr (.inl rfl)⟩
      | some p =>
          rw [hp] at hr
          simp only [] at hr
          cases hc : s.checkHeader cfg h h.prev with
          | error why =>
              rw [hc] at hr
              cases hr
              exact .inl ⟨rfl, .inr (.inr ⟨why, rfl⟩)⟩
          | ok u =>
              rw [hc] at hr
              cases hr
              refine .inr ⟨rfl, AList.lookup_eq_none.mp hl, mem_iff_exists.mpr ⟨p, hp⟩, rfl, ?_⟩
              rw [show s.ticked = { s with tick := s.tick + 1 } from rfl, addIndex_eq]

/-- The header of a block was accepted, now or before. -/
def HeaderResult.Accepts (r : HeaderResult) (h : Hash256) : Prop := r = .ok h ∨ r = .known h

theorem receiveBody_cases {cfg : Config} {s s' : Chainstate} {idx : Hash256} {b : Block}
    {w : Bool} {r : Except String Bool} (h : s.receiveBody cfg idx b w = (s', r)) :
    (s' = s ∧ r ≠ .ok true ∧
      ((s.entry idx).haveData = true ∨ ∃ e, s.checkBlock idx b w = .error e)) ∨
    ((s.entry idx).haveData = true ∧ w = true ∧ s.wantsWitness idx b = true ∧
      s' = s.fillWitness cfg idx b ∧ r = .ok true) ∨
    ((s.entry idx).haveData = false ∧ s.checkBlock idx b w = .ok () ∧
      ∃ s₁ done, s.storeBlock cfg idx b w = (s₁, done) ∧
        ((done = false ∧ s' = s₁ ∧ r ≠ .ok true) ∨
          (done = true ∧ s' = s₁.updateChainData idx ∧ r = .ok true))) := by
  rw [receiveBody] at h
  split at h
  · next hd =>
      split at h
      · next hw =>
          cases h
          exact .inr (.inl ⟨hd, hw.1, hw.2, rfl, rfl⟩)
      · cases h
        exact .inl ⟨rfl, fun h => (by cases h), .inl hd⟩
  · next hd =>
      rw [Bool.not_eq_true] at hd
      split at h
      · next e hc =>
          cases h
          exact .inl ⟨rfl, fun h => (by cases h), .inr ⟨e, hc⟩⟩
      · next hc =>
          refine .inr (.inr ⟨hd, hc, ?_⟩)
          split at h
          · next s₁ hs =>
              cases h
              exact ⟨s', false, hs, .inl ⟨rfl, rfl, fun h => (by cases h)⟩⟩
          · next s₁ hs =>
              cases h
              exact ⟨s₁, true, hs, .inr ⟨rfl, rfl, rfl⟩⟩

theorem receiveBlock_cases {cfg : Config} {s s' : Chainstate} {b : Block} {w : Bool}
    {r : Except String Bool} (h : s.receiveBlock cfg b w = (s', r)) :
    ∃ s₁ hr, s.acceptHeader cfg b.header = (s₁, hr) ∧
      ((hr.Accepts b.header.hash ∧ s₁.receiveBody cfg b.header.hash b w = (s', r)) ∨
        (¬ hr.Accepts b.header.hash ∧ s' = s₁ ∧ r ≠ .ok true)) := by
  rw [receiveBlock] at h
  cases ha : s.acceptHeader cfg b.header with
  | mk s₁ hr =>
  have hid : ∀ x, hr = .ok x ∨ hr = .known x → x = b.header.hash := by
    intro x hx
    rcases acceptHeader_cases ha with ⟨-, ⟨rfl, -, -⟩ | rfl | ⟨why, rfl⟩⟩ | ⟨rfl, -⟩ <;>
      rcases hx with hx | hx <;> cases hx <;> rfl
  rw [ha] at h
  refine ⟨s₁, hr, rfl, ?_⟩
  cases hr with
  | ok x =>
      cases hid x (.inl rfl)
      exact .inl ⟨.inl rfl, h⟩
  | known x =>
      cases hid x (.inr rfl)
      exact .inl ⟨.inr rfl, h⟩
  | orphan =>
      cases h
      exact .inr ⟨fun h => (by rcases h with h | h <;> cases h), rfl, fun h => (by cases h)⟩
  | invalid why =>
      cases h
      exact .inr ⟨fun h => (by rcases h with h | h <;> cases h), rfl, fun h => (by cases h)⟩

omit [Crypto] in
theorem storeBlock_cases {cfg : Config} {s s' : Chainstate} {idx : Hash256} {b : Block}
    {w done : Bool} (h : s.storeBlock cfg idx b w = (s', done)) :
    (done = false ∧ s' = s.ticked ∧ cfg.env.fault s.tick .writeBlock = true) ∨
    (done = true ∧ cfg.env.fault s.tick .writeBlock = false ∧
      s' = s.stored idx b
        (w && s.keepWitness cfg idx && !cfg.env.fault s.tick .writeWitness)) := by
  rw [storeBlock] at h
  split at h
  · next hf =>
      cases h
      exact .inl ⟨rfl, rfl, hf⟩
  · next hf =>
      cases h
      exact .inr ⟨rfl, by simpa using hf, rfl⟩

/-! ## Snapshots -/

/-- The snapshot `x` of block `bh` is one the node takes over. -/
structure Adopts (cfg : Config) (s : Chainstate) (x : Bytes) (bh : Hash256)
    (snap : Snapshot) : Prop where
  fresh : s.height = 0
  head : ∃ rest, snapshotHead x = .ok ((stateMagic, bh), rest)
  known : bh ∈ s.index
  committed : s.committedHashFor cfg bh = some (stateHash x)
  read : Snapshot.read x = .ok (snap, [])
  height : int64 snap.height = ((s.entry bh).height : Int)

theorem receiveSnapshot_cases {cfg : Config} {s s' : Chainstate} {x : Bytes}
    {r : Except String Bool} (h : s.receiveSnapshot cfg x = (s', r)) :
    (r ≠ .ok true ∧ (s' = s.ticked ∨ (s.height = 0 ∧ s' = s.ticked.clearState))) ∨
    ∃ bh snap, s.Adopts cfg x bh snap ∧
      ((r ≠ .ok true ∧ cfg.env.fault s.tick .writeSnapshot = true ∧
          s' = s.ticked.loadSnapshot snap) ∨
        (r ≠ .ok true ∧ cfg.env.fault s.tick .writeBase = true ∧
          s' = (s.ticked.loadSnapshot snap).holdSnapshot bh x) ∨
        (r = .ok true ∧ ∃ held, held = (s.ticked.loadSnapshot snap).holdSnapshot bh x ∧
          s' = (adoptSnapshot { held with disk := { held.disk with baseDat := some bh.bytes } }
            bh).flush cfg)) := by
  have herr : ∀ e : String, (Except.error e : Except String Bool) ≠ .ok true :=
    fun e h => by cases h
  rw [receiveSnapshot] at h
  split at h
  · cases h
    exact .inl ⟨herr _, .inl rfl⟩
  next hfresh =>
  have hfresh' : s.height = 0 := by omega
  split at h
  · cases h
    exact .inl ⟨herr _, .inl rfl⟩
  split at h
  · cases h
    exact .inl ⟨herr _, .inl rfl⟩
  next magic bh rest hhead =>
  split at h
  · cases h
    exact .inl ⟨herr _, .inl rfl⟩
  next hmagic =>
  split at h
  · cases h
    exact .inl ⟨herr _, .inl rfl⟩
  next hknown =>
  split at h
  · cases h
    exact .inl ⟨herr _, .inl rfl⟩
  next c hcommit =>
  split at h
  · cases h
    exact .inl ⟨herr _, .inl rfl⟩
  next hc =>
  split at h
  · next s₁ hp =>
      cases h
      refine .inl ⟨herr _, .inr ⟨hfresh', ?_⟩⟩
      rw [parseState] at hp
      split at hp
      · cases hp
        rfl
      · split at hp
        · cases hp
        · cases hp
          rfl
  next s₁ t hgt hp =>
  have hread : ∃ snap, Snapshot.read x = .ok (snap, []) ∧ hgt = snap.height ∧
      s₁ = s.ticked.loadSnapshot snap := by
    rw [parseState] at hp
    split at hp
    · cases hp
    next snap rest' hread =>
    split at hp
    · next hempty =>
        cases hp
        rw [List.isEmpty_iff.mp hempty] at hread
        exact ⟨snap, hread, rfl, rfl⟩
    · cases hp
  obtain ⟨snap, hread, rfl, rfl⟩ := hread
  split at h
  · cases h
    exact .inl ⟨herr _, .inr ⟨hfresh', (loadSnapshot_ledgerOnly s.ticked snap).clearState⟩⟩
  next hheight =>
  have had : s.Adopts cfg x bh snap :=
    { fresh := hfresh'
      head := ⟨rest, by rw [hhead, not_not.mp hmagic]⟩
      known := not_not.mp hknown
      committed := by rw [hcommit, not_not.mp hc]
      read := hread
      height := not_not.mp hheight }
  refine .inr ⟨bh, snap, had, ?_⟩
  split at h
  · next hf =>
      cases h
      exact .inl ⟨herr _, hf, rfl⟩
  simp only [] at h
  split at h
  · next hf =>
      cases h
      exact .inr (.inl ⟨herr _, hf, rfl⟩)
  · cases h
    exact .inr (.inr ⟨rfl, _, rfl, rfl⟩)

end Chainstate

end QuantCore
