import QuantCore.Proofs.Script

/-!
# An adoption that fails

`load_snapshot_bytes` reads the snapshot into the maps before it knows that the
files can be written. Where it gives up after that, the maps are left with what
the snapshot says, and nothing says so: the node's chain is still genesis. Which
bytes, which files and which state it takes for a refusal to leave the node as
it was is said exactly.
-/

namespace QuantCore

open Codec Maps

variable [Crypto]

namespace Chainstate

/-! ## What a call leaves alone -/

/-- The maps of two states hold the same. -/
structure SameMaps (s s' : Chainstate) : Prop where
  utxo : fn s'.utxo = fn s.utxo
  byAddr : fn s'.byAddr = fn s.byAddr
  tokens : fn s'.tokens = fn s.tokens
  pools : fn s'.pools = fn s.pools
  supply : s'.supply = s.supply

/-- The eight fields an adoption sets are as they were. -/
structure Untouched (s s' : Chainstate) : Prop where
  maps : SameMaps s s'
  chain : s'.chain = s.chain
  base : s'.snapshotBase = s.snapshotBase
  held : fn s'.snapshotHash = fn s.snapshotHash

/-- If the call fails, it has changed nothing. -/
def AllOrNothing (cfg : Config) (s : Chainstate) (x : Bytes) : Prop :=
  ∀ why, (s.loadSnapshotBytes cfg x).2 = .error why →
    Untouched s (s.loadSnapshotBytes cfg x).1

/-! ## When it does -/

/-- The bytes claim to be of the block `bh`, and a header above it commits to
them. -/
structure Committed (cfg : Config) (s : Chainstate) (x : Bytes) (bh : Hash256) : Prop where
  length : 4 + 32 + 1 ≤ x.length
  head : ∃ rest, snapshotHead x = .ok ((stateMagic, bh), rest)
  known : bh ∈ s.index
  committed : s.committedHashFor cfg bh = some (stateHash x)

/-- The bytes are a snapshot of a block of that height. -/
def Parses (s : Chainstate) (x : Bytes) (bh : Hash256) (snap : Snapshot) : Prop :=
  Snapshot.read x = .ok (snap, []) ∧ int64 snap.height = ((s.entry bh).height : Int)

/-- What a snapshot says, read into nothing. -/
def stateOf (snap : Snapshot) : Chainstate := ({} : Chainstate).loadSnapshot snap

/-- Bytes that are committed to find the maps empty if they are no snapshot, and
if they are one, either both files can be written or the node holds already what
the call would have left behind. -/
structure Harmless (cfg : Config) (s : Chainstate) (x : Bytes) : Prop where
  malformed : ∀ bh, s.Committed cfg x bh → (∀ snap, ¬ s.Parses x bh snap) → SameMaps s {}
  unwritten : ∀ bh snap, s.Committed cfg x bh → s.Parses x bh snap →
    cfg.env.fault s.tick .writeSnapshot = true → SameMaps s (stateOf snap)
  unmarked : ∀ bh snap, s.Committed cfg x bh → s.Parses x bh snap →
    cfg.env.fault s.tick .writeSnapshot = false → cfg.env.fault s.tick .writeBase = true →
      SameMaps s (stateOf snap) ∧ s.snapshotHash.lookup bh = some (stateHash x)

/-! ## The call, exit by exit -/

omit [Crypto] in
theorem snapshotHead_unique {x : Bytes} {a b : Hash256} {r r' : Bytes} {m m' : UInt32}
    (h : snapshotHead x = .ok ((m, a), r)) (h' : snapshotHead x = .ok ((m', b), r')) : a = b := by
  rw [h] at h'
  cases h'
  rfl

variable {cfg : Config} {s : Chainstate} {x : Bytes} {bh : Hash256}

/-- Bytes nothing commits to are refused unread. -/
theorem receiveSnapshot_uncommitted (h : ∀ bh, ¬ s.Committed cfg x bh) :
    ∃ e, s.receiveSnapshot cfg x = (s.ticked, .error e) := by
  rw [receiveSnapshot]
  split
  · exact ⟨_, rfl⟩
  split
  · exact ⟨_, rfl⟩
  next hlen =>
  split
  · exact ⟨_, rfl⟩
  next magic bh rest hhead =>
  split
  · exact ⟨_, rfl⟩
  next hmagic =>
  split
  · exact ⟨_, rfl⟩
  next hknown =>
  split
  · exact ⟨_, rfl⟩
  next c hc =>
  split
  · exact ⟨_, rfl⟩
  next hhash =>
  refine absurd ?_ (h bh)
  exact ⟨Nat.not_lt.mp hlen, ⟨rest, by rw [hhead, not_not.mp hmagic]⟩, not_not.mp hknown,
    by rw [hc, not_not.mp hhash]⟩

omit [Crypto] in
theorem parseState_some {t : Chainstate} {snap : Snapshot}
    (h : Snapshot.read x = .ok (snap, [])) :
    t.parseState x = (t.loadSnapshot snap, some (snap.block, snap.height)) := by
  rw [parseState, h]
  rfl

omit [Crypto] in
theorem parseState_none {t : Chainstate} (h : ∀ snap, Snapshot.read x ≠ .ok (snap, [])) :
    t.parseState x = (t.clearState, none) := by
  rw [parseState]
  split
  · rfl
  · next snap rest hread =>
      split
      · next hempty =>
          rw [List.isEmpty_iff.mp hempty] at hread
          exact absurd hread (h snap)
      · rfl

/-- Committed bytes that are no snapshot of their block leave the maps empty. -/
theorem receiveSnapshot_malformed (hf : s.height = 0) (h : s.Committed cfg x bh)
    (hp : ∀ snap, ¬ s.Parses x bh snap) :
    s.receiveSnapshot cfg x = (s.ticked.clearState, .error "parse-failed") := by
  obtain ⟨rest, hhead⟩ := h.head
  rw [receiveSnapshot, if_neg (by omega), if_neg (Nat.not_lt.mpr h.length), hhead]
  simp only [ne_eq, not_true_eq_false, if_false, h.known, h.committed]
  have hparse : ∀ snap, Snapshot.read x = .ok (snap, []) →
      int64 snap.height ≠ ((s.entry bh).height : Int) := fun snap hr he => hp snap ⟨hr, he⟩
  by_cases hr : ∃ snap, Snapshot.read x = .ok (snap, [])
  · obtain ⟨snap, hr⟩ := hr
    have hclear : (s.ticked.loadSnapshot snap).clearState = s.ticked.clearState :=
      (loadSnapshot_ledgerOnly s.ticked snap).clearState
    have he := parseState_some (t := s.ticked) hr
    rw [ticked] at he
    rw [he]
    simp only []
    rw [if_pos (hparse snap hr)]
    exact congrArg (·, _) hclear
  · rw [not_exists] at hr
    have he := parseState_none (t := s.ticked) hr
    rw [ticked] at he
    rw [he]
    rfl

/-- A committed snapshot that cannot be written stays in the maps. -/
theorem receiveSnapshot_unwritten (hf : s.height = 0) (h : s.Committed cfg x bh)
    {snap : Snapshot} (hp : s.Parses x bh snap)
    (hw : cfg.env.fault s.tick .writeSnapshot = true) :
    s.receiveSnapshot cfg x = (s.ticked.loadSnapshot snap, .error "disk-write-failed") := by
  obtain ⟨rest, hhead⟩ := h.head
  rw [receiveSnapshot, if_neg (by omega), if_neg (Nat.not_lt.mpr h.length), hhead]
  simp only [ne_eq, not_true_eq_false, if_false, h.known, h.committed]
  have he := parseState_some (t := s.ticked) hp.1
  rw [ticked] at he
  rw [he]
  simp only [hp.2, hw, not_true_eq_false, if_false, if_true]
  rfl

/-- A committed snapshot whose block cannot be recorded stays in the maps, and
its hash stays held. -/
theorem receiveSnapshot_unmarked (hf : s.height = 0) (h : s.Committed cfg x bh)
    {snap : Snapshot} (hp : s.Parses x bh snap)
    (hw : cfg.env.fault s.tick .writeSnapshot = false)
    (hb : cfg.env.fault s.tick .writeBase = true) :
    s.receiveSnapshot cfg x =
      ((s.ticked.loadSnapshot snap).holdSnapshot bh x, .error "disk-write-failed") := by
  obtain ⟨rest, hhead⟩ := h.head
  rw [receiveSnapshot, if_neg (by omega), if_neg (Nat.not_lt.mpr h.length), hhead]
  simp only [ne_eq, not_true_eq_false, if_false, h.known, h.committed]
  have he := parseState_some (t := s.ticked) hp.1
  rw [ticked] at he
  rw [he]
  simp only [hp.2, hw, hb, not_true_eq_false, Bool.false_eq_true, if_false, if_true]
  rfl

theorem receiveSnapshot_adopted (hf : s.height = 0) (h : s.Committed cfg x bh)
    {snap : Snapshot} (hp : s.Parses x bh snap)
    (hw : cfg.env.fault s.tick .writeSnapshot = false)
    (hb : cfg.env.fault s.tick .writeBase = false) :
    (s.receiveSnapshot cfg x).2 = .ok true := by
  obtain ⟨rest, hhead⟩ := h.head
  rw [receiveSnapshot, if_neg (by omega), if_neg (Nat.not_lt.mpr h.length), hhead]
  simp only [ne_eq, not_true_eq_false, if_false, h.known, h.committed]
  have he := parseState_some (t := s.ticked) hp.1
  rw [ticked] at he
  rw [he]
  simp only [hp.2, hw, hb, not_true_eq_false, Bool.false_eq_true, if_false]

/-! ## What it leaves -/

omit [Crypto] in
theorem SameMaps.symm {s t : Chainstate} (h : SameMaps s t) : SameMaps t s :=
  ⟨h.utxo.symm, h.byAddr.symm, h.tokens.symm, h.pools.symm, h.supply.symm⟩

omit [Crypto] in
theorem SameMaps.trans {s t u : Chainstate} (h : SameMaps s t) (h' : SameMaps t u) :
    SameMaps s u :=
  ⟨h'.utxo.trans h.utxo, h'.byAddr.trans h.byAddr, h'.tokens.trans h.tokens,
    h'.pools.trans h.pools, h'.supply.trans h.supply⟩

omit [Crypto] in
/-- What a snapshot puts in the maps does not depend on the node. -/
theorem sameMaps_loadSnapshot (s : Chainstate) (snap : Snapshot) :
    SameMaps (stateOf snap) (s.loadSnapshot snap) := by
  let R : Chainstate → Chainstate → Prop := fun s t =>
    s.utxo = t.utxo ∧ s.byAddr = t.byAddr ∧ s.tokens = t.tokens ∧ s.pools = t.pools ∧
      s.supply = t.supply
  have hcoins : R (snap.coins.foldl (fun s e => s.addCoin e.1 e.2) s.clearState)
      (snap.coins.foldl (fun s e => s.addCoin e.1 e.2) (clearState {})) := by
    refine List.foldl_rel (r := R) ⟨rfl, rfl, rfl, rfl, rfl⟩ fun e _ s t h => ?_
    obtain ⟨hu, hb, ht, hp, hs⟩ := h
    refine ⟨?_, ?_, ht, hp, ?_⟩
    · show s.utxo.insert _ _ = t.utxo.insert _ _
      rw [hu]
    · show s.byAddr.insert _ _ = t.byAddr.insert _ _
      rw [hb]
    · show (if _ then s.supply + _ else s.supply) = if _ then t.supply + _ else t.supply
      rw [hs]
  have htokens := List.foldl_rel (r := R) (l := snap.tokens)
    (f := fun s t => s.addToken t.id t) (g := fun s t => s.addToken t.id t) hcoins
    fun t _ a b h => ⟨h.1, h.2.1, by rw [addToken, addToken, h.2.2.1], h.2.2.2⟩
  have hpools := List.foldl_rel (r := R) (l := snap.pools)
    (f := fun s p => { s with
      pools := s.pools.insert p.token p, supply := s.supply + p.qnt })
    (g := fun s p => { s with
      pools := s.pools.insert p.token p, supply := s.supply + p.qnt }) htokens
    fun p _ a b h => ⟨h.1, h.2.1, h.2.2.1, congrArg (·.insert p.token p) h.2.2.2.1,
      congrArg (· + p.qnt) h.2.2.2.2⟩
  obtain ⟨hu, hb, ht, hp, hs⟩ := hpools
  exact ⟨congrArg fn hu, congrArg fn hb, congrArg fn ht, congrArg fn hp, hs⟩

theorem loadSnapshotBytes_error {s' : Chainstate} {e : String}
    (h : s.receiveSnapshot cfg x = (s', .error e)) :
    s.loadSnapshotBytes cfg x = (s', .error e) := by
  rw [loadSnapshotBytes, h]
  rfl

theorem allOrNothing_of_error {s' : Chainstate} {e : String}
    (h : s.receiveSnapshot cfg x = (s', .error e)) :
    s.AllOrNothing cfg x ↔ Untouched s s' := by
  rw [AllOrNothing, loadSnapshotBytes_error h]
  exact ⟨fun hall => hall e rfl, fun hu _ _ => hu⟩

omit [Crypto] in
theorem untouched_clear (s : Chainstate) : Untouched s s.ticked.clearState ↔ SameMaps s {} :=
  ⟨fun h => ⟨h.maps.utxo, h.maps.byAddr, h.maps.tokens, h.maps.pools, h.maps.supply⟩,
    fun h => ⟨⟨h.utxo, h.byAddr, h.tokens, h.pools, h.supply⟩, rfl, rfl, rfl⟩⟩

omit [Crypto] in
theorem untouched_load (s : Chainstate) (snap : Snapshot) :
    Untouched s (s.ticked.loadSnapshot snap) ↔ SameMaps s (stateOf snap) := by
  have hm := sameMaps_loadSnapshot s.ticked snap
  have hl := loadSnapshot_ledgerOnly s.ticked snap
  rw [LedgerOnly] at hl
  constructor
  · exact fun h => h.maps.trans hm.symm
  · intro h
    refine ⟨h.trans hm, ?_, ?_, ?_⟩
    all_goals rw [hl]; rfl

theorem untouched_hold (s : Chainstate) (snap : Snapshot) (bh : Hash256) (x : Bytes) :
    Untouched s ((s.ticked.loadSnapshot snap).holdSnapshot bh x) ↔
      SameMaps s (stateOf snap) ∧ s.snapshotHash.lookup bh = some (stateHash x) := by
  have hm := sameMaps_loadSnapshot s.ticked snap
  have hl := loadSnapshot_ledgerOnly s.ticked snap
  rw [LedgerOnly] at hl
  have hheld : ((s.ticked.loadSnapshot snap).holdSnapshot bh x).snapshotHash =
      s.snapshotHash.insert bh (stateHash x) := by
    rw [holdSnapshot, hl]
    rfl
  have hsame : SameMaps (s.ticked.loadSnapshot snap)
      ((s.ticked.loadSnapshot snap).holdSnapshot bh x) := ⟨rfl, rfl, rfl, rfl, rfl⟩
  constructor
  · intro h
    refine ⟨h.maps.trans (hm.trans hsame).symm, ?_⟩
    have hk := congrFun h.held bh
    rw [hheld, fn_insert, Function.update_self] at hk
    exact hk.symm
  · rintro ⟨h, hk⟩
    refine ⟨h.trans (hm.trans hsame), ?_, ?_, ?_⟩
    · rw [holdSnapshot, hl]
      rfl
    · rw [holdSnapshot, hl]
      rfl
    · rw [hheld, fn_insert]
      exact Function.update_eq_self_iff.mpr hk.symm

/-- On a fresh node a refusal changes nothing exactly when the bytes are harmless. -/
theorem adoption_all_or_nothing (hf : s.height = 0) :
    s.AllOrNothing cfg x ↔ s.Harmless cfg x := by
  by_cases hc : ∃ bh, s.Committed cfg x bh
  · obtain ⟨bh, hc⟩ := hc
    have huniq : ∀ b, s.Committed cfg x b → b = bh := fun b hb => by
      obtain ⟨r, hr⟩ := hb.head
      obtain ⟨r', hr'⟩ := hc.head
      exact snapshotHead_unique hr hr'
    by_cases hp : ∃ snap, s.Parses x bh snap
    · obtain ⟨snap, hp⟩ := hp
      have hsnap : ∀ y, s.Parses x bh y → y = snap := fun y hy => by
        have := hy.1.symm.trans hp.1
        cases this
        rfl
      cases hw : cfg.env.fault s.tick .writeSnapshot with
      | true =>
          rw [allOrNothing_of_error (receiveSnapshot_unwritten hf hc hp hw), untouched_load]
          constructor
          · intro h
            refine ⟨fun b hb hno => ?_, fun b y hb hy _ => ?_, fun b y _ _ hf _ => ?_⟩
            · exact absurd (huniq b hb ▸ hp) (hno snap)
            · obtain rfl := huniq b hb
              rw [hsnap y hy]
              exact h
            · rw [hw] at hf
              cases hf
          · exact fun h => h.unwritten bh snap hc hp hw
      | false =>
          cases hb : cfg.env.fault s.tick .writeBase with
          | true =>
              rw [allOrNothing_of_error (receiveSnapshot_unmarked hf hc hp hw hb), untouched_hold]
              constructor
              · intro h
                refine ⟨fun b hb hno => ?_, fun b y _ _ hf => ?_, fun b y hb hy _ _ => ?_⟩
                · exact absurd (huniq b hb ▸ hp) (hno snap)
                · rw [hw] at hf
                  cases hf
                · obtain rfl := huniq b hb
                  rw [hsnap y hy]
                  exact h
              · exact fun h => h.unmarked bh snap hc hp hw hb
          | false =>
              refine ⟨fun _ => ⟨fun b hb hno => ?_, fun b y _ _ hf => ?_, fun b y _ _ _ hf => ?_⟩,
                fun _ why he => ?_⟩
              · exact absurd (huniq b hb ▸ hp) (hno snap)
              · rw [hw] at hf
                cases hf
              · rw [hb] at hf
                cases hf
              · have hok := receiveSnapshot_adopted hf hc hp hw hb
                rw [loadSnapshotBytes] at he
                cases hr : s.receiveSnapshot cfg x with
                | mk s' r =>
                    rw [hr] at hok he
                    rw [show r = .ok true from hok] at he
                    cases he
    · rw [not_exists] at hp
      rw [allOrNothing_of_error (receiveSnapshot_malformed hf hc hp), untouched_clear]
      constructor
      · intro h
        refine ⟨fun _ _ _ => h, fun b y hb hy _ => ?_, fun b y hb hy _ _ => ?_⟩
        · exact absurd (huniq b hb ▸ hy) (hp y)
        · exact absurd (huniq b hb ▸ hy) (hp y)
      · exact fun h => h.malformed bh hc hp
  · rw [not_exists] at hc
    obtain ⟨e, he⟩ := receiveSnapshot_uncommitted hc
    rw [allOrNothing_of_error he]
    constructor
    · exact fun _ => ⟨fun b hb => absurd hb (hc b), fun b _ hb => absurd hb (hc b),
        fun b _ hb => absurd hb (hc b)⟩
    · exact fun _ => ⟨⟨rfl, rfl, rfl, rfl, rfl⟩, rfl, rfl, rfl⟩

omit [Crypto] in
/-- The walk down the tree reads the index alone. -/
theorem walkDown_congr {s t : Chainstate} (h : t.index = s.index) (height k : Nat) :
    ∀ walk hw, t.walkDown height k walk hw = s.walkDown height k walk hw := by
  induction k with
  | zero => exact fun _ _ => rfl
  | succ k ih =>
      intro walk hw
      have hentry : t.entry walk = s.entry walk := by simp only [entry, h]
      simp only [walkDown, hentry, ih]

/-- What a header commits to is read off the tree and the active chain. -/
theorem committedHashFor_congr {s t : Chainstate} (hindex : t.index = s.index)
    (hchain : t.chain = s.chain) (hbest : t.bestHeader = s.bestHeader) (bh : Hash256) :
    t.committedHashFor cfg bh = s.committedHashFor cfg bh := by
  have hentry : ∀ b, t.entry b = s.entry b := fun b => by simp only [entry, hindex]
  have hat : ∀ height, t.atHeight height = s.atHeight height := fun height => by
    rw [atHeight, atHeight, hchain]
  have hactive : ∀ b, t.inActiveChain b = s.inActiveChain b := fun b => by
    rw [inActiveChain, inActiveChain, hentry, hat]
  have hanc : ∀ b height, t.ancestor b height = s.ancestor b height := fun b height => by
    rw [ancestor, ancestor, hentry, hactive, hat, walkDown_congr hindex]
  simp only [committedHashFor, hbest, hentry, hanc]

/-- Where the first call has failed on the write, it has left behind what the
next one will read: that one fails too, and changes nothing more. -/
theorem harmless_again (hf : s.height = 0) (h : s.Committed cfg x bh) {snap : Snapshot}
    (hp : s.Parses x bh snap) (hw : ∀ t, cfg.env.fault t .writeSnapshot = true) :
    (s.loadSnapshotBytes cfg x).1.height = 0 ∧
      ((s.loadSnapshotBytes cfg x).1.loadSnapshotBytes cfg x).2 = .error "disk-write-failed" ∧
      (s.loadSnapshotBytes cfg x).1.Harmless cfg x := by
  have hfirst := loadSnapshotBytes_error (receiveSnapshot_unwritten hf h hp (hw s.tick))
  have hl := loadSnapshot_ledgerOnly s.ticked snap
  rw [LedgerOnly] at hl
  rw [hfirst]
  have hsame := (sameMaps_loadSnapshot s.ticked snap).symm
  generalize s.ticked.loadSnapshot snap = s₁ at hl hsame
  have hheight : s₁.height = 0 := by
    rw [hl]
    exact hf
  have hback : ∀ b, s₁.Committed cfg x b → b = bh := fun b hb => by
    obtain ⟨r, hr⟩ := hb.head
    obtain ⟨r', hr'⟩ := h.head
    exact snapshotHead_unique hr hr'
  have hcommitted : s₁.Committed cfg x bh := by
    refine ⟨h.length, h.head, ?_, ?_⟩
    · rw [hl]
      exact h.known
    · rw [← h.committed]
      refine committedHashFor_congr ?_ ?_ ?_ bh
      all_goals rw [hl]; rfl
  have hparses : s₁.Parses x bh snap := by
    refine ⟨hp.1, ?_⟩
    rw [hl]
    exact hp.2
  refine ⟨hheight, ?_, fun b hb hno => ?_, fun b y hb hy _ => ?_, fun b y _ _ hquiet _ => ?_⟩
  · show (s₁.loadSnapshotBytes cfg x).2 = _
    rw [loadSnapshotBytes_error (receiveSnapshot_unwritten hheight hcommitted hparses (hw s₁.tick))]
  · exact absurd (hback b hb ▸ hparses) (hno snap)
  · obtain rfl := hback b hb
    have hy' := hy.1.symm.trans hparses.1
    cases hy'
    exact hsame
  · rw [hw] at hquiet
    cases hquiet

end Chainstate

end QuantCore

namespace QuantCore.Chainstate

attribute [local instance] stampCrypto

/-- A disk on which no snapshot can be written. -/
def noSnapshots (_ : Nat) (op : IoOp) : Bool := op = .writeSnapshot

/-- The call fails and the supply is not what it was. -/
def leaks (s : Chainstate) : Bool :=
  s.height == 0 && !(s.loadSnapshotBytes (regtestWith noSnapshots) s.forged).2.isOk &&
    (s.loadSnapshotBytes (regtestWith noSnapshots) s.forged).1.supply != s.supply

/-- A fresh node that knows the line, on such a disk. -/
def leakyNode : { s : Option Chainstate //
    s = forgedLine noSnapshots ∧ s.any leaks = true } :=
  ⟨forgedLine noSnapshots, rfl, by decide +kernel⟩

/-- A fresh node is left with the coins of a snapshot it could not write. -/
theorem adoption_leaks : ¬ ∀ (cfg : Config) (o : Offers) (ph : Phase) (s : Chainstate) (x : Bytes),
    Reaches cfg o anyStep ph s → s.height = 0 → s.AllOrNothing cfg x := by
  intro hall
  obtain ⟨x, hx, hrun⟩ := leakyNode
  rw [hx] at hrun
  cases hr : forgedLine noSnapshots with
  | none =>
      rw [hr] at hrun
      cases hrun
  | some s =>
      rw [hr] at hrun
      obtain ⟨hfail, hsupply⟩ := Bool.and_eq_true_iff.mp hrun
      obtain ⟨hheight, herr⟩ := Bool.and_eq_true_iff.mp hfail
      have h := hall _ _ _ s s.forged (reaches_forgedLine hr) (eq_of_beq hheight)
      cases he : (s.loadSnapshotBytes (regtestWith noSnapshots) s.forged).2 with
      | ok u =>
          rw [he] at herr
          cases herr
      | error why =>
          have hsame := (h why he).maps.supply
          rw [hsame, bne_self_eq_false] at hsupply
          cases hsupply

/-- The bytes are a snapshot of a block a header above it commits to. -/
def commits (cfg : Config) (s : Chainstate) (x : Bytes) : Bool :=
  match snapshotHead x, Snapshot.read x with
  | .ok ((magic, bh), _), .ok (snap, []) =>
      decide (4 + 32 + 1 ≤ x.length) && decide (magic = stateMagic) && decide (bh ∈ s.index) &&
        decide (s.committedHashFor cfg bh = some (stateHash x)) &&
        decide (int64 snap.height = ((s.entry bh).height : Int))
  | _, _ => false

theorem commits_spec {cfg : Config} {s : Chainstate} {x : Bytes} (h : s.commits cfg x = true) :
    ∃ bh snap, s.Committed cfg x bh ∧ s.Parses x bh snap := by
  rw [commits] at h
  split at h
  · next magic bh rest snap hhead hread =>
      simp only [Bool.and_eq_true, decide_eq_true_eq] at h
      obtain ⟨⟨⟨⟨hlen, rfl⟩, hknown⟩, hhash⟩, hheight⟩ := h
      exact ⟨bh, snap, ⟨hlen, ⟨rest, hhead⟩, hknown, hhash⟩, hread, hheight⟩
  · cases h

/-- The fresh node knows a line that commits to the snapshot. -/
def committedNode : { s : Option Chainstate // s = forgedLine noSnapshots ∧
    s.any (fun s => leaks s && s.commits (regtestWith noSnapshots) s.forged) = true } :=
  ⟨forgedLine noSnapshots, rfl, by decide +kernel⟩

/-- On the fresh node the committed snapshot is not harmless and its failure is not
without a trace; once it has failed it is, and the same call fails again and
changes nothing. -/
theorem adoption_all_or_nothing_line : ∃ s : Chainstate,
    Reaches (regtestWith noSnapshots) anyOffers anyStep .idle s ∧ s.height = 0 ∧
    (∃ bh snap, s.Committed (regtestWith noSnapshots) s.forged bh ∧ s.Parses s.forged bh snap) ∧
    ¬ s.AllOrNothing (regtestWith noSnapshots) s.forged ∧
    ¬ s.Harmless (regtestWith noSnapshots) s.forged ∧
    ∃ t, t = (s.loadSnapshotBytes (regtestWith noSnapshots) s.forged).1 ∧
      (t.loadSnapshotBytes (regtestWith noSnapshots) s.forged).2 = .error "disk-write-failed" ∧
      t.AllOrNothing (regtestWith noSnapshots) s.forged := by
  obtain ⟨x, hx, hrun⟩ := committedNode
  rw [hx] at hrun
  cases hr : forgedLine noSnapshots with
  | none =>
      rw [hr] at hrun
      cases hrun
  | some s =>
      rw [hr] at hrun
      obtain ⟨hleaks, hcommits⟩ := Bool.and_eq_true_iff.mp hrun
      obtain ⟨hfail, hsupply⟩ := Bool.and_eq_true_iff.mp hleaks
      obtain ⟨hheight, herr⟩ := Bool.and_eq_true_iff.mp hfail
      have hf : s.height = 0 := eq_of_beq hheight
      obtain ⟨bh, snap, hc, hp⟩ := commits_spec hcommits
      have hleak : ¬ s.AllOrNothing (regtestWith noSnapshots) s.forged := by
        intro h
        cases he : (s.loadSnapshotBytes (regtestWith noSnapshots) s.forged).2 with
        | ok u =>
            rw [he] at herr
            cases herr
        | error why =>
            rw [(h why he).maps.supply, bne_self_eq_false] at hsupply
            cases hsupply
      obtain ⟨hagain, hfails, hharmless⟩ := harmless_again hf hc hp fun _ => rfl
      exact ⟨s, reaches_forgedLine hr, hf, ⟨bh, snap, hc, hp⟩, hleak,
        fun h => hleak ((adoption_all_or_nothing hf).mpr h),
        (s.loadSnapshotBytes (regtestWith noSnapshots) s.forged).1, rfl, hfails,
        (adoption_all_or_nothing hagain).mpr hharmless⟩

end QuantCore.Chainstate
