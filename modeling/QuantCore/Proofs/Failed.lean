import QuantCore.Proofs.Tip

/-!
# Only invalid blocks are marked failed

`activate_best_chain` marks the block that would not connect, and with it what is
above. `connect_block` refuses for reasons of two kinds: the block breaks a rule,
or a file could not be read or written. The caller tells them apart by the text
of the reason, and spares the reads; the write of an undo record it does not
spare.

Whether a block breaks a rule is said without a node: by the contents that its
header commits to and the state of the branch it names.
-/

namespace QuantCore

open Codec Maps Forest

variable [Crypto] (net : Network) (known : Block → Prop)

/-! ## Breaking a rule -/

/-- `b` has the transactions that the header of the block `x` of height `n` commits
to and, if it is `whole`, their witnesses as well. -/
structure Contents (x : Hash256) (n : Nat) (b : Block) (whole : Bool) : Prop where
  small : n < 2 ^ 63
  core : ∃ c, known c ∧ c.header.hash = x ∧ c.Checked n ∧ b.core = c.core
  witness : whole = true → ∃ bytes rest, IsWitness known x bytes ∧
    b.core.readWitness bytes = .ok (b, rest)

/-- The block `x` breaks a rule of consensus on the branch it names: one of its
transactions is refused, its coinbase pays more than it may, or it does not commit
to the state it should. -/
inductive Breaks (x : Hash256) : Prop
  | view {n : Nat} {b : Block} {whole : Bool} {bs : List Block} {L : StateReader} {e : String}
      (hx : Contents known x (n + 1) b whole)
      (hb : Branch (paramsFor net) known n b.header.prev bs L)
      (hv : blockView L b (UInt64.ofNat (n + 1)) (paramsFor net).genesisHash whole = .error e)
  | coinbase {n : Nat} {b : Block} {whole : Bool} {bs : List Block} {L : StateReader}
      {v : LedgerView} {fees : Amount} (hx : Contents known x (n + 1) b whole)
      (hb : Branch (paramsFor net) known n b.header.prev bs L)
      (hv : blockView L b (UInt64.ofNat (n + 1)) (paramsFor net).genesisHash whole =
        .ok (v, fees))
      (hpay : blockSubsidy (UInt64.ofNat (n + 1)) + fees < (b.txs.headD default).totalQntOut)
  | commitment {n : Nat} {b : Block} {whole : Bool} {bs : List Block} {L : StateReader}
      {c : Block} {y : Bytes} (hx : Contents known x (n + 1) b whole)
      (hb : Branch (paramsFor net) known n b.header.prev bs L)
      (hh : (paramsFor net).isCommitHeight (n + 1) = true)
      (hc : bs[(paramsFor net).snapshotDelay - 1]? = some c)
      (hy : IsState net known c.header.hash y) (hne : stateHash y ≠ b.header.stateCommit)

variable {net known}

namespace Chainstate

variable {s s' : Chainstate}

/-- What is read back of a block is its contents. -/
theorem Content.contents (hs : Sources net known) (h : s.Content net known) {cfg : Config}
    {idx : Hash256} (hx : (s.node idx).isSome) (hn : (s.entry idx).height < 2 ^ 63)
    {w got : Bool} {b : Block} (hr : s.readBlock cfg idx w = some (b, got)) :
    Contents known idx (s.entry idx).height b got := by
  obtain ⟨c, hk, hhash, hc, hcore, -, hyes⟩ := h.read hs hx hr
  refine ⟨hn, ⟨c, hk, hhash, hc, hcore⟩, fun hgot => ?_⟩
  obtain ⟨-, x, rest, hw, hread⟩ := hyes hgot
  rw [hcore]
  exact ⟨x, rest, hw, hread⟩

/-- The blocks of a branch, from its end down, are those above its end in the tree. -/
theorem Content.branch_at (hs : Sources net known) (h : s.Content net known) {n : Nat}
    {t : Hash256} {bs : List Block} {L : StateReader}
    (hb : Branch (paramsFor net) known n t bs L) (ht : (s.node t).isSome) {k : Nat}
    {a : Hash256} (ha : up (Nodes.parent s.node) k t = some a) :
    ∃ c, bs[k]? = some c ∧ c.header.hash = a := by
  induction hb generalizing k with
  | genesis =>
      cases k with
      | zero =>
          cases ha
          exact ⟨_, rfl, (genesis_hash net).symm⟩
      | succ k =>
          obtain ⟨m, hm, hprev⟩ := h.rooted.tree.genesis
          rw [up, Nodes.parent_eq hm, hprev] at ha
          cases ha
  | @block n bs L L' b hb hk hc hn hst ih =>
      cases k with
      | zero =>
          cases ha
          exact ⟨b.core, rfl, rfl⟩
      | succ k =>
          rw [up] at ha
          obtain ⟨p, hp, ha⟩ := Option.bind_eq_some_iff.mp ha
          obtain rfl := h.prev_eq hs hp hk rfl
          obtain ⟨m, hm, hprev⟩ := Nodes.isSome_of_parent hp
          obtain ⟨-, q, hq, -⟩ := h.rooted.tree.parent _ m _ hm hprev
          exact ih (by rw [hq]; rfl) ha

theorem isCommitHeight_delay {net : Network} {n : Nat}
    (h : (paramsFor net).isCommitHeight n = true) :
    0 < (paramsFor net).snapshotDelay ∧ (paramsFor net).snapshotDelay ≤ n := by
  rw [ChainParams.isCommitHeight, decide_eq_true_eq] at h
  refine ⟨?_, by omega⟩
  cases net with
  | main => exact (by decide : 0 < 100)
  | test => exact (by decide : 0 < 100)
  | regtest => exact (by decide : 0 < 5)

/-- The commitment of a block on the tip is compared with that of the state a
number of blocks down its branch. -/
theorem Content.commitment (hs : Sources net known) (h : s.Content net known) {cfg : Config}
    (hnet : cfg.network = net) {idx : Hash256} (hp : Nodes.parent s.node idx = some s.tip)
    {bs : List Block} {L : StateReader}
    (hb : Branch (paramsFor net) known s.height s.tip bs L)
    (hbad : s.commitmentOk cfg idx = false) :
    (paramsFor net).isCommitHeight (s.height + 1) = true ∧
      ∃ c y, bs[(paramsFor net).snapshotDelay - 1]? = some c ∧
        IsState net known c.header.hash y ∧
        stateHash y ≠ (s.entry idx).header.stateCommit := by
  subst hnet
  obtain ⟨n, hn, hnp⟩ := Nodes.isSome_of_parent hp
  have hheight := h.height_next hp
  have hnode : n.height = s.height + 1 := by
    rw [← Nodes.height_eq hn, ← entry_height, hheight]
  rw [commitmentOk, hheight] at hbad
  split at hbad
  · next hcommit =>
      obtain ⟨hpos, hle⟩ := isCommitHeight_delay hcommit
      have hanc := ancestor_eq h.rooted.tree h.rooted.chain hn
        (k := s.height + 1 - cfg.params.snapshotDelay) (by omega)
      split at hbad
      · cases hbad
      next base hbase =>
      split at hbad
      · cases hbad
      next x hx =>
      refine ⟨hcommit, ?_⟩
      have hsteps : n.height - (s.height + 1 - cfg.params.snapshotDelay) =
          cfg.params.snapshotDelay - 1 + 1 := by
        have : cfg.params.snapshotDelay ≤ s.height + 1 := hle
        have : 0 < cfg.params.snapshotDelay := hpos
        omega
      rw [hbase, hsteps, up, hp] at hanc
      obtain ⟨c, hc, hch⟩ := h.branch_at hs hb h.rooted.tip_isSome hanc.symm
      obtain ⟨y, hy, rfl⟩ := h.held base x hx
      refine ⟨c, y, hc, hch ▸ hy, ?_⟩
      rw [beq_eq_false_iff_ne] at hbad
      exact hbad
  · cases hbad

/-- Whatever is wrong with a block that will not connect, and is not the fault of
the disk, is wrong with the block. -/
theorem Content.breaks (hs : Sources net known) (h : s.Content net known)
    (hn : s.index.keys.length < 2 ^ 63) {cfg : Config} (hnet : cfg.network = net) {idx : Hash256} (hp : Nodes.parent s.node idx = some s.tip)
    {e : String} (he : s.checkConnect cfg idx = .error e) (hread : e ≠ "read-failed")
    (hwitness : e ≠ "missing-witness") :
    Breaks net known idx ∨ cfg.env.fault s.tick .writeUndo = true := by
  obtain ⟨n, hnode, -⟩ := Nodes.isSome_of_parent hp
  have hin : (s.node idx).isSome := by rw [hnode]; rfl
  have hheight := h.height_next hp
  obtain ⟨bs, hbranch, -⟩ := h.branch
  simp only [checkConnect] at he
  split at he
  · cases he
    exact absurd rfl hread
  next b got hblock =>
  have hlt := h.height_lt
  have hx := h.contents hs hin (by omega) hblock
  obtain ⟨c, hk, hhash, -, hcore⟩ := hx.core
  have hhead : b.core.header = c.core.header := congrArg Block.header hcore
  have hhead : b.header = c.header := hhead
  have hbb : Branch (paramsFor net) known s.height b.header.prev bs s.reader := by
    rw [hhead, h.prev_eq hs hp hk hhash]
    exact hbranch
  rw [hheight] at hx he
  have hpos : decide (s.height + 1 > 0) = true := decide_eq_true (Nat.succ_pos _)
  rw [hpos, Bool.and_true] at he
  split at he
  · cases he
    exact absurd rfl hwitness
  split at he
  · next hcommit =>
      rw [Bool.not_eq_true'] at hcommit
      obtain ⟨hh, d, y, hd, hy, hne⟩ := h.commitment hs hnet hp hbranch hcommit
      have hhead' : (s.entry idx).header = b.header := by
        have hentry : (s.entry idx).header = n.header :=
          congrArg Node.header (entry_node hnode)
        rw [hentry, hhead]
        exact h.rooted.tree.header_eq h.named hs.free hnode hk hhash
      rw [hhead'] at hne
      exact .inl (.commitment hx hbb hh hd hy hne)
  subst hnet
  split at he
  · next e' hv => exact .inl (.view hx hbb hv)
  next v fees hv =>
  split at he
  · next hpay => exact .inl (.coinbase hx hbb hv hpay.2)
  split at he
  · next hfault => exact .inr hfault.2
  · cases he

/-! ## The flag -/

/-- No block is marked that was not. -/
structure Spares (s s' : Chainstate) : Prop where
  failed : ∀ x, (s'.entry x).failed = true → (s.entry x).failed = true

omit [Crypto] in
theorem Spares.refl (s : Chainstate) : Spares s s := ⟨fun _ h => h⟩

omit [Crypto] in
theorem Spares.trans {s₁ s₂ s₃ : Chainstate} (h₁ : Spares s₁ s₂) (h₂ : Spares s₂ s₃) :
    Spares s₁ s₃ := ⟨fun x h => h₁.failed x (h₂.failed x h)⟩

omit [Crypto] in
theorem Spares.foldl {α : Type} {f : Chainstate → α → Chainstate}
    (hf : ∀ s a, Spares s (f s a)) (l : List α) (s : Chainstate) : Spares s (l.foldl f s) := by
  induction l generalizing s with
  | nil => exact .refl s
  | cons a l ih => exact (hf s a).trans (ih (f s a))

omit [Crypto] in
theorem entry_congr (h : s'.index = s.index) (x : Hash256) : s'.entry x = s.entry x := by
  rw [entry, entry, h]

omit [Crypto] in
theorem spares_of_index (h : s'.index = s.index) : Spares s s' where
  failed := fun x hx => by rwa [entry_congr h] at hx

omit [Crypto] in
theorem failed_of_lookup {x : Hash256} (h : (s.entry x).failed = true) :
    ∃ i, s.lookup x = some i ∧ i.failed = true := by
  cases hi : s.lookup x with
  | none =>
      rw [entry, show s.index.lookup x = none from hi] at h
      cases h
  | some i =>
      rw [entry, show s.index.lookup x = some i from hi] at h
      exact ⟨i, rfl, h⟩

omit [Crypto] in
theorem entry_of_lookup {x : Hash256} {i : BlockIndex} (h : s.lookup x = some i) :
    s.entry x = i := by
  rw [entry, show s.index.lookup x = some i from h]
  rfl

omit [Crypto] in
theorem spares_modify (s : Chainstate) (h : Hash256) {f : BlockIndex → BlockIndex}
    (hf : ∀ i, (f i).failed = i.failed) : Spares s (s.modify h f) := by
  refine ⟨fun x hx => ?_⟩
  obtain ⟨i, hi, hif⟩ := failed_of_lookup hx
  rw [lookup_modify] at hi
  split at hi
  · next hxh =>
      obtain ⟨j, hj, rfl⟩ := Option.map_eq_some_iff.mp hi
      rw [hxh, entry_of_lookup hj, ← hf]
      exact hif
  · rw [entry_of_lookup hi]
    exact hif

omit [Crypto] in
theorem chainDataLoop_spares (k : Nat) (todo : List Hash256) (s : Chainstate) :
    Spares s (chainDataLoop k todo s) := by
  induction k generalizing todo s with
  | zero => exact .refl s
  | succ k ih =>
      cases todo with
      | nil => exact .refl s
      | cons x todo =>
          rw [chainDataLoop]
          split
          · exact ih ..
          · have h₁ := spares_modify s x (f := fun b => { b with chainData := true })
              fun _ => rfl
            refine h₁.trans (Spares.trans ?_ (ih ..))
            split
            · exact .refl _
            · exact spares_of_index rfl

omit [Crypto] in
theorem updateChainData_spares (s : Chainstate) (b : Hash256) :
    Spares s (s.updateChainData b) := by
  rw [updateChainData]
  split
  · exact .refl s
  · exact chainDataLoop_spares ..

/-- A header that is new is not marked. -/
theorem addIndex_spares (s : Chainstate) (hd : BlockHeader) : Spares s (s.addIndex hd) := by
  refine ⟨fun x hx => ?_⟩
  obtain ⟨i, hi, hif⟩ := failed_of_lookup hx
  rw [addIndex_lookup] at hi
  split at hi
  · cases hi
    rw [newEntry] at hif
    split at hif
    · cases hif
    · cases hif
  · have hlink : Spares s (s.linkChild (s.newEntry hd).prev hd.hash) := by
      cases (s.newEntry hd).prev with
      | none => exact .refl s
      | some p => exact spares_modify s p fun _ => rfl
    refine hlink.failed x ?_
    rw [entry_of_lookup hi]
    exact hif

theorem acceptHeader_spares {cfg : Config} {hd : BlockHeader} {r : HeaderResult}
    (hr : s.acceptHeader cfg hd = (s', r)) : Spares s s' := by
  rcases acceptHeader_cases hr with ⟨rfl, -⟩ | ⟨-, -, -, -, rfl⟩
  · exact spares_of_index rfl
  · exact ⟨(addIndex_spares s.ticked hd).failed⟩

omit [Crypto] in
theorem storeBlock_spares {cfg : Config} {idx : Hash256} {b : Block} {w done : Bool}
    (h : s.storeBlock cfg idx b w = (s', done)) : Spares s s' := by
  rcases storeBlock_cases h with ⟨-, rfl, -⟩ | ⟨-, -, rfl⟩
  · exact spares_of_index rfl
  · have h := spares_modify s idx (f := fun i => { i with
      dataPos := s.disk.blocks.length
      dataLen := (UInt32.ofNat b.coreBytes.length).toNat, haveData := true }) fun _ => rfl
    exact h.trans (spares_of_index rfl)

theorem receiveBlock_spares {cfg : Config} {b : Block} {w : Bool} {r : Except String Bool}
    (hr : s.receiveBlock cfg b w = (s', r)) : Spares s s' := by
  obtain ⟨s₁, hres, ha, hcase⟩ := receiveBlock_cases hr
  have h₁ := acceptHeader_spares ha
  rcases hcase with ⟨-, hbody⟩ | ⟨-, rfl, -⟩
  · rcases receiveBody_cases hbody with ⟨rfl, -⟩ | ⟨-, -, -, rfl, -⟩ |
      ⟨-, -, s₂, done, hstore, hcase⟩
    · exact h₁
    · exact h₁.trans (spares_of_index rfl)
    · rcases hcase with ⟨-, rfl, -⟩ | ⟨-, rfl, -⟩
      · exact h₁.trans (storeBlock_spares hstore)
      · exact (h₁.trans (storeBlock_spares hstore)).trans (updateChainData_spares s₂ _)
  · exact h₁

omit [Crypto] in
theorem adoptSnapshot_spares (s : Chainstate) (bh : Hash256) :
    Spares s (s.adoptSnapshot bh) := by
  have h₁ := spares_modify s bh (f := fun i => { i with fromSnapshot := true }) fun _ => rfl
  rw [adoptSnapshot]
  generalize s.modify bh (fun i => { i with fromSnapshot := true }) = s₁ at h₁
  generalize ht : ({ s₁ with
    snapshotBase := (s₁.entry bh).height, chain := s₁.chainTo (s₁.entry bh).height bh []
    txindex := ∅ } : Chainstate) = t
  have h₂ : Spares s₁ t := by
    rw [← ht]
    exact spares_of_index rfl
  have h₃ := spares_modify t bh (f := fun i => { i with chainData := true }) fun _ => rfl
  generalize t.modify bh (fun i => { i with chainData := true }) = u at h₃
  have h₄ : Spares u (u.addCandidate bh) := spares_of_index rfl
  exact ((h₁.trans h₂).trans (h₃.trans h₄)).trans (.foldl updateChainData_spares _ _)

theorem receiveSnapshot_spares {cfg : Config} {x : Bytes} {r : Except String Bool}
    (hr : s.receiveSnapshot cfg x = (s', r)) : Spares s s' := by
  have hload : ∀ snap, (s.ticked.loadSnapshot snap).index = s.index := by
    intro snap
    rw [loadSnapshot_ledgerOnly s.ticked snap]
    rfl
  rcases receiveSnapshot_cases hr with ⟨-, rfl | ⟨-, rfl⟩⟩ | ⟨bh, snap, -, hcase⟩
  · exact spares_of_index rfl
  · exact spares_of_index rfl
  · rcases hcase with ⟨-, -, rfl⟩ | ⟨-, -, rfl⟩ | ⟨-, held, rfl, rfl⟩
    · exact spares_of_index (hload snap)
    · exact spares_of_index (hload snap)
    · generalize hheld : (s.ticked.loadSnapshot snap).holdSnapshot bh x = held
      have h₁ : Spares s { held with disk := { held.disk with baseDat := some bh.bytes } } := by
        rw [← hheld]
        exact spares_of_index (hload snap)
      exact (h₁.trans (adoptSnapshot_spares _ bh)).trans (spares_of_index rfl)

/-! ## A start -/

/-- A node that starts has marked nothing. -/
theorem loadIndex_spares {cfg : Config} {disk : Disk} {tick : Nat}
    (h : loadIndex cfg disk tick = .ok s) : Spares {} s := by
  have hheader : ∀ (t : Chainstate) (hd : BlockHeader), Spares t (t.indexHeader hd) := by
    intro t hd
    rw [indexHeader_eq]
    split
    · exact addIndex_spares t hd
    · exact .refl t
  have hgenesis : ∀ t : Chainstate, Spares t (t.indexGenesis cfg) := by
    intro t
    rw [indexGenesis]
    split
    · exact ⟨(addIndex_spares t cfg.params.genesis.header).failed⟩
    · exact .refl t
  have hposition : ∀ (t : Chainstate) (r : Bytes), Spares t (t.indexPosition r) := by
    intro t r
    rw [indexPosition]
    split
    · exact .refl t
    · split
      · exact .refl t
      · exact spares_modify t _ fun _ => rfl
  rw [loadIndex] at h
  split at h
  · cases h
  rw [Except.ok.injEq] at h
  have hblank : Spares {} ({ disk := truncateHeaders disk, tick } : Chainstate) :=
    spares_of_index rfl
  have htree := ((hblank.trans (.foldl hheader (headersOnDisk disk) _)).trans (hgenesis _)).trans
    (.foldl hposition (records 44 (indexGenesis cfg ((headersOnDisk disk).foldl indexHeader
      { disk := truncateHeaders disk, tick })).disk.blockpos) _)
  split at h
  · rw [← h]
    exact htree
  · rw [← h]
    exact htree.trans (storeBlock_spares (Prod.eta _).symm)

theorem loadReady_spares {cfg : Config} {disk : Disk} {tick : Nat}
    (h : loadReady cfg disk tick = .ok s) : Spares {} s := by
  have hbase : ∀ t : Chainstate, Spares t (t.loadBase cfg) := by
    intro t
    rw [loadBase]
    split
    · exact .refl t
    split
    · exact .refl t
    · next base _ =>
        simp only []
        split
        · have hm := spares_modify t (Hash256.ofBytes base)
            (f := fun b => { b with fromSnapshot := true }) fun _ => rfl
          exact ⟨hm.failed⟩
        · exact .refl t
  have hflag : ∀ (t : Chainstate) (x : Hash256), Spares t (t.flagChainData x) := by
    intro t x
    have hm := spares_modify t x (f := fun b => { b with chainData := t.dataReady x })
      fun _ => rfl
    rw [flagChainData]
    split
    · exact ⟨hm.failed⟩
    · exact hm
  obtain ⟨s₁, s₂, h₁, h₂, rfl⟩ := loadReady_cases h
  have hready : Spares {} ((s₁.loadBase cfg).indexChainData.scanSnapshots cfg) :=
    ((loadIndex_spares h₁).trans (hbase s₁)).trans
      ⟨(Spares.foldl hflag _ (s₁.loadBase cfg)).failed⟩
  have htip : s₂.index = ((s₁.loadBase cfg).indexChainData.scanSnapshots cfg).index := by
    rcases loadTipState_cases h₂ with ⟨-, rfl | rfl⟩ | ⟨sb, x, -, -, -, -, -, -, rfl⟩
    · rfl
    · rfl
    · have hl := loadSnapshot_ledgerOnly { (s₁.loadBase cfg).indexChainData.scanSnapshots cfg with
        chain := [cfg.params.genesisHash] } x
      rw [LedgerOnly] at hl
      rw [hl]
  have htxs : (s₂.indexChainTxs cfg).ticked.index = s₂.index := by
    show (s₂.indexChainTxs cfg).index = s₂.index
    rw [indexChainTxs_eq]
  exact (hready.trans (spares_of_index htip)).trans (spares_of_index htxs)

/-! ## The marks -/

/-- The blocks that the walk marks have one of its stack above them. -/
theorem markLoop_failed {g : Hash256} {k : Nat} {todo : List Hash256}
    (hw : Nodes.Wf g s.node s.nextSeq) {x : Hash256}
    (hx : ((markLoop k todo s).entry x).failed = true) :
    (s.entry x).failed = true ∨ ∃ r ∈ todo, Above (Nodes.parent s.node) r x := by
  induction k generalizing todo s with
  | zero => exact .inl hx
  | succ k ih =>
      cases todo with
      | nil => exact .inl hx
      | cons y todo =>
          rw [markLoop] at hx
          generalize ht : (s.modify y fun b => { b with failed := true }).eraseCandidate y = t at hx
          have hsame : SameTree s t := by
            rw [← ht]
            exact (flagsOnly_modify s y (f := fun b => { b with failed := true })
              fun _ => rfl).sameTree.trans (flagsOnly_eraseCandidate _ y).sameTree
          rcases ih (by rw [hsame.node, hsame.nextSeq]; exact hw) hx with hf | ⟨r, hr, hrx⟩
          · -- Of the blocks themselves only the one popped is marked.
            by_cases hxy : x = y
            · exact .inr ⟨y, List.mem_cons_self, hxy ▸ .refl _⟩
            · left
              obtain ⟨i, hi, hif⟩ := failed_of_lookup hf
              rw [← ht] at hi
              have hi : (s.modify y fun b => { b with failed := true }).lookup x = some i := hi
              rw [lookup_modify, if_neg hxy] at hi
              rw [entry_of_lookup hi]
              exact hif
          · rw [hsame.node] at hrx
            right
            rcases List.mem_append.mp hr with hr | hr
            · -- A child of the block popped has it for its parent.
              have hchild : r ∈ (t.entry y).node.children := List.mem_reverse.mp hr
              rw [entry_node_congr hsame.node] at hchild
              cases hy : s.node y with
              | none =>
                  obtain ⟨q, hq⟩ : ∃ q, s.lookup y = some q := by
                    cases hq : s.lookup y with
                    | none =>
                        rw [entry, show s.index.lookup y = none from hq] at hchild
                        cases hchild
                    | some q => exact ⟨q, rfl⟩
                  rw [node, hq] at hy
                  cases hy
              | some q =>
                  rw [entry_node hy] at hchild
                  obtain ⟨n, hn, hnp⟩ := hw.children y q r hy hchild
                  have hp : Nodes.parent s.node r = some y := by rw [Nodes.parent_eq hn, hnp]
                  exact ⟨y, List.mem_cons_self, (above_parent hp).trans hrx⟩
            · exact ⟨r, List.mem_cons_of_mem y hr, hrx⟩

variable (net known) in
/-- A block that is marked breaks a rule, or one above it does. -/
def MarksInvalid (s : Chainstate) : Prop :=
  ∀ x, (s.entry x).failed = true →
    ∃ y, Above (Nodes.parent s.node) y x ∧ Breaks net known y

/-- Nothing is marked while the tree grows. -/
theorem MarksInvalid.grown {g : Hash256} (h : s.MarksInvalid net known) (hr : s.Rooted g)
    (hg : Nodes.Extends s.node s'.node) (hs : Spares s s') : s'.MarksInvalid net known := by
  intro x hx
  have hf := hs.failed x hx
  obtain ⟨y, hy, hb⟩ := h x hf
  obtain ⟨i, hi, -⟩ := failed_of_lookup hf
  refine ⟨y, (hg.above hr.tree ?_).mpr hy, hb⟩
  rw [node, hi]
  rfl

theorem MarksInvalid.sameTree {g : Hash256} (h : s.MarksInvalid net known) (hr : s.Rooted g)
    (ht : SameTree s s') (hs : Spares s s') : s'.MarksInvalid net known :=
  h.grown hr (by rw [ht.node]; exact .refl _) hs

/-- A block that breaks a rule, and all that is above it, may be marked. -/
theorem MarksInvalid.markFailed {g : Hash256} (h : s.MarksInvalid net known) (hr : s.Rooted g)
    {cfg : Config} {b : Hash256} (hb : Breaks net known b) :
    (s.markFailed cfg b).MarksInvalid net known := by
  intro x hx
  have hnode := (markFailed_flagsOnly cfg s b).sameTree.node
  rw [hnode]
  have hx : ((markLoop (s.index.keys.length + 1) [b] s).entry x).failed = true := hx
  rcases markLoop_failed hr.tree hx with hf | ⟨r, hrb, hrx⟩
  · exact h x hf
  · rw [List.mem_singleton] at hrb
    exact ⟨b, hrb ▸ hrx, hb⟩

/-! ## A run -/

theorem connectBlock_spares {cfg : Config} {idx : Hash256} {r : Except String Unit}
    (h : s.connectBlock cfg idx = (s', r)) : Spares s s' := by
  rw [Chainstate.connectBlock] at h
  split at h
  · cases h
    exact spares_of_index rfl
  · next b v hc =>
      cases h
      exact spares_of_index ((commitBlock_filesOnly cfg s idx b v).files.1.trans
        (connected_index idx b v))

theorem disconnectTip_spares {cfg : Config} {r : Except String Unit}
    (h : s.disconnectTip cfg = (s', r)) : Spares s s' := by
  rw [Chainstate.disconnectTip] at h
  split at h
  · cases h
    exact spares_of_index rfl
  split at h
  · next b got u hb hu =>
      cases h
      refine spares_of_index ?_
      show (s.revertBlock b u).index = s.index
      rw [revertBlock_eq]
  · cases h
    exact spares_of_index rfl

theorem flushDue_spares (cfg : Config) (s : Chainstate) : Spares s (s.flushDue cfg) := by
  rw [Chainstate.flushDue]
  split
  · exact spares_of_index rfl
  · exact spares_of_index rfl

/-- Beside an orderly step, the undo record of a block that breaks no rule can be
written. -/
structure Recording (net : Network) (known : Block → Prop) (cfg : Config) (o : Offers)
    (ph : Phase) (s : Chainstate) : Prop extends Orderly net known cfg o ph s where
  undo : ∀ start guard b rest, ph = .connect start guard (b :: rest) → ¬ Breaks net known b →
    cfg.env.fault s.tick .writeUndo = false

theorem MarksInvalid.activateStep (hs : Sources net known) {cfg : Config}
    (hnet : cfg.network = net) {ph ph' : Phase} (h : s.MarksInvalid net known)
    (hc : s.Content net known) (hfit : s.Fits) (hp : ph.Rooted s)
    (hundo : ∀ start guard b rest, ph = .connect start guard (b :: rest) →
      ¬ Breaks net known b → cfg.env.fault s.tick .writeUndo = false)
    (he : activateStep cfg ph s = (ph', s')) : s'.MarksInvalid net known := by
  cases ph with
  | idle =>
      cases he
      exact h
  | choose start guard =>
      cases guard with
      | zero =>
          cases he
          exact h
      | succ guard =>
          rw [Chainstate.activateStep] at he
          split at he
          · cases he
            exact h
          split at he
          · cases he
            exact h
          · cases he
            exact h
  | unwind start guard cand fork =>
      rw [Chainstate.activateStep] at he
      split at he
      · cases he
        exact h
      · split at he
        · next s₁ hd =>
            cases he
            refine h.grown hc.rooted ?_ (disconnectTip_spares hd)
            rw [(disconnectTip_tree hd).1]
            exact .refl _
        · next s₁ e hd =>
            cases he
            refine h.grown hc.rooted ?_ (disconnectTip_spares hd)
            rw [(disconnectTip_tree hd).1]
            exact .refl _
  | connect start guard path =>
      cases path with
      | nil =>
          cases he
          exact h
      | cons b rest =>
          rw [Chainstate.activateStep] at he
          split at he
          · next s₁ hb =>
              cases he
              refine h.grown hc.rooted ?_ ((connectBlock_spares hb).trans (flushDue_spares cfg s₁))
              rw [(flushDue_sameTree cfg s₁).node, (connectBlock_tree hb).1]
              exact .refl _
          · next s₁ e hb =>
              obtain ⟨-, -, -, herr⟩ := connectBlock_tree hb
              obtain rfl := herr (by simp)
              have htick : s.ticked.MarksInvalid net known :=
                h.sameTree hc.rooted ⟨rfl, rfl, rfl⟩ (spares_of_index rfl)
              split at he
              · cases he
                exact htick
              · next hwhy =>
                  cases he
                  rw [not_or] at hwhy
                  have hcheck : s.checkConnect cfg b = .error e := by
                    rw [Chainstate.connectBlock] at hb
                    split at hb
                    · next e' he' =>
                        cases hb
                        exact he'
                    · exact absurd (congrArg Prod.snd hb) (fun h => by cases h)
                  refine htick.markFailed hc.ticked.rooted ?_
                  by_contra hok
                  rcases hc.breaks hs hfit.index hnet hp.next hcheck hwhy.2 hwhy.1 with hbad | hfault
                  · exact hok hbad
                  · rw [hundo start guard b rest rfl hok] at hfault
                    cases hfault
  | finish start =>
      cases he
      exact h.sameTree hc.rooted (flagsOnly_dropCandidates s).sameTree (spares_of_index rfl)

theorem MarksInvalid.step (hs : Sources net known) {cfg : Config} (hnet : cfg.network = net)
    {o : Offers} {ph ph' : Phase} (h : s.MarksInvalid net known) (hc : s.Content net known)
    (hfit : s.Fits) (hp : ph.Rooted s) (hok : Recording net known cfg o ph s)
    (hstep : Step cfg o (ph, s) (ph', s')) : s'.MarksInvalid net known := by
  generalize hy : (ph', s') = y at hstep
  cases hstep with
  | @header _ b hb =>
      cases hy
      cases hr : s.acceptHeader cfg b.header with
      | mk s₁ r =>
          exact h.grown hc.rooted (acceptHeader_grown hc.rooted hr).node (acceptHeader_spares hr)
  | @block _ b w hb =>
      cases hr : s.receiveBlock cfg b w with
      | mk s₁ r =>
          rw [hr] at hy
          have hg := receiveBlock_grown hc.rooted hr
          obtain ⟨rfl, -⟩ := enter_rooted hg.rooted hy.symm
          exact h.grown hc.rooted hg.node (receiveBlock_spares hr)
  | @snapshot _ x hox =>
      cases hr : s.receiveSnapshot cfg x with
      | mk s₁ r =>
          rw [hr] at hy
          obtain ⟨hroot, hnode⟩ := receiveSnapshot_rooted hc.rooted hr
          obtain ⟨rfl, -⟩ := enter_rooted hroot hy.symm
          refine h.grown hc.rooted ?_ (receiveSnapshot_spares hr)
          rw [hnode]
          exact .refl _
  | flush =>
      cases hy
      exact h.sameTree hc.rooted (flush_sameTree cfg s) (spares_of_index rfl)
  | activate hne => exact h.activateStep hs hnet hc hfit hp hok.undo hy.symm
  | restart hl =>
      cases hy
      intro x hx
      have hblank := (loadReady_spares hl).failed x hx
      cases hblank

theorem Reaches.marksInvalid (hs : Sources net known) {cfg : Config} (hnet : cfg.network = net)
    {o : Offers} (ho : ∀ b, o.Around net b → known b) {ph : Phase}
    (h : Reaches cfg o (Recording net known cfg o) ph s) : s.MarksInvalid net known := by
  induction h with
  | start hl hfit =>
      intro x hx
      have hblank := (loadReady_spares hl).failed x hx
      cases hblank
  | step hr hok hstep hfit ih =>
      obtain ⟨hc, hp⟩ := hr.orderly hs hnet ho fun _ _ hok => hok.toOrderly
      exact ih.step hs hnet hc hr.fits hp hok hstep

/-- In every state of a run in which the undo records of valid blocks are written, a
block that is marked failed breaks a rule, or one above it does. -/
theorem failed_breaks (hs : Sources net known) {cfg : Config} (hnet : cfg.network = net)
    {o : Offers} (ho : ∀ b, o.Around net b → known b) {ph : Phase}
    (h : Reaches cfg o (Recording net known cfg o) ph s) {x : Hash256}
    (hx : (s.entry x).failed = true) :
    ∃ y, Above (Nodes.parent s.node) y x ∧ Breaks net known y :=
  h.marksInvalid hs hnet ho x hx

end Chainstate

/-! ## Blocks that break no rule -/

/-- Genesis has no branch to break a rule on. -/
theorem Breaks.ne_genesis (hs : Sources net known) {x : Hash256} (h : Breaks net known x) :
    x ≠ (paramsFor net).genesisHash := by
  have hne : ∀ {n : Nat} {b : Block} {whole : Bool}, Contents known x (n + 1) b whole →
      x ≠ (paramsFor net).genesisHash := by
    rintro n b whole ⟨hn, ⟨c, hk, rfl, hc, -⟩, -⟩
    exact Branch.hash_ne_genesis hs hk hc hn
  cases h with
  | view hx hb hv => exact hne hx
  | coinbase hx hb hv hpay => exact hne hx
  | commitment hx hb hh hc hy hbad => exact hne hx

/-- A first block that is a coinbase only, and pays no more than it may. -/
theorem not_breaks (hs : Sources net known) {b : Block} (hk : known b) (hc : b.Checked 1)
    (hone : b.txs.tail = [])
    (hpay : (b.txs.headD default).totalQntOut ≤ blockSubsidy (UInt64.ofNat 1)) :
    ¬ Breaks net known b.header.hash := by
  have hsame : ∀ {n : Nat} {a : Block} {whole : Bool}, Contents known b.header.hash (n + 1) a whole →
      n = 0 ∧ a.core = b.core := by
    rintro n a whole ⟨hn, ⟨c, hck, hhash, hcc, hcore⟩, -⟩
    obtain ⟨hheight, hcb⟩ := Branch.same_core hs.free hck hk hcc hc hn (by decide) hhash
    exact ⟨by omega, hcore.trans hcb⟩
  have htail : ∀ {a : Block}, a.core = b.core → a.txs.tail = [] := by
    intro a ha
    have hmap : a.txs.tail.map Transaction.core = b.txs.tail.map Transaction.core := by
      rw [← Block.core_txs_tail, ha, Block.core_txs_tail]
    rw [hone] at hmap
    exact List.map_eq_nil_iff.mp hmap
  intro h
  cases h with
  | @view n a whole bs L e hx hb hv =>
      obtain ⟨-, ha⟩ := hsame hx
      rw [blockView, htail ha] at hv
      cases hv
  | @coinbase n a whole bs L v fees hx hb hv hbad =>
      obtain ⟨rfl, ha⟩ := hsame hx
      rw [blockView, htail ha] at hv
      cases hv
      have hhead : (a.txs.headD default).totalQntOut = (b.txs.headD default).totalQntOut := by
        have hcore := congrArg (fun x : Block => (x.txs.headD default).totalQntOut) ha
        simp only [Block.core_txs_head] at hcore
        exact hcore
      rw [hhead, UInt64.add_zero] at hbad
      exact absurd hpay (UInt64.not_le.mpr hbad)
  | @commitment n a whole bs L c y hx hb hh hc hy hbad =>
      obtain ⟨rfl, -⟩ := hsame hx
      rw [ChainParams.isCommitHeight, decide_eq_true_eq] at hh
      cases net with
      | main => exact absurd hh.1 (by decide : ¬ 1 ≥ 10080 + 100)
      | test => exact absurd hh.1 (by decide : ¬ 1 ≥ 10080 + 100)
      | regtest => exact absurd hh.1 (by decide : ¬ 1 ≥ 50 + 5)

end QuantCore

namespace QuantCore.Chainstate

open Forest

attribute [local instance] stampCrypto

/-- The first block, with a coinbase that pays more than the subsidy. -/
def lavishBlock : Block :=
  let b : Block := { txs := [{ lockHeight := 1, outs := [⟨100000000000, qntAsset, 0⟩] }] }
  { b with header :=
      { prev := regtestGenesis.header.hash, time := 1790121720, bits := (limitBelow 255).toCompact
        merkleRoot := b.computeMerkleRoot, witnessRoot := b.computeWitnessRoot } }

theorem limits_lavish : lavishBlock.Limits := by decide +kernel

theorem sources_lavish : Sources .regtest ((loneOffer lavishBlock).Around .regtest) :=
  sources_lone rfl limits_lavish (by decide +kernel)

theorem failed_breaks_lavish : ∃ s : Chainstate,
    (s.entry lavishBlock.header.hash).failed = true ∧
      ∃ y, Above (Nodes.parent s.node) y lavishBlock.header.hash ∧
        Breaks .regtest ((loneOffer lavishBlock).Around .regtest) y := by
  have hrun : (((boot (regtestWith quiet)).bind (take (regtestWith quiet) lavishBlock)).map
      fun s => (s.entry lavishBlock.header.hash).failed) = some true := by
    decide +kernel
  obtain ⟨s, hs, hfailed⟩ := Option.map_eq_some_iff.mp hrun
  refine ⟨s, hfailed, failed_breaks sources_lavish rfl (fun _ h => h) ((reaches_lone hs).mono
    fun ph s _ => ?_) hfailed⟩
  exact ⟨orderly_lone lavishBlock _ _ ph s, fun _ _ _ _ _ _ => rfl⟩

/-- Undo records cannot be written. -/
def noUndo (_ : Nat) (op : IoOp) : Bool := op = .writeUndo

theorem checked_first : firstBlock.Checked 1 where
  coinbase := rfl
  others := fun t ht => absurd ht List.not_mem_nil
  merkle := rfl
  height := rfl
  basic := fun t ht => by
    obtain rfl := List.mem_singleton.mp ht
    decide
  ids := List.nodup_singleton _

/-- A valid block whose undo record could not be written is marked for good. -/
theorem undo_fault_marks : ¬ ∀ (net : Network) (known : Block → Prop) (cfg : Config) (o : Offers)
    (ph : Phase) (s : Chainstate) (x : Hash256), Sources net known → cfg.network = net →
    (∀ b, o.Around net b → known b) → Reaches cfg o (Orderly net known cfg o) ph s →
    (s.entry x).failed = true →
      ∃ y, Above (Nodes.parent s.node) y x ∧ Breaks net known y := by
  intro hall
  have hrun : (((boot (regtestWith noUndo)).bind (take (regtestWith noUndo) firstBlock)).map
      fun s => (s.entry firstBlock.header.hash).failed) = some true := by
    decide +kernel
  obtain ⟨s, hs, hfailed⟩ := Option.map_eq_some_iff.mp hrun
  obtain ⟨s₀, h₀, hs⟩ := Option.bind_eq_some_iff.mp hs
  have hreach : Reaches (regtestWith noUndo) firstOffer (Orderly .regtest
      (firstOffer.Around .regtest) (regtestWith noUndo) firstOffer) .idle s :=
    (reaches_take rfl (reaches_boot h₀) hs).mono fun ph s _ => orderly_lone firstBlock _ _ ph s
  have hfirst : firstOffer.Around .regtest firstBlock := .inr ⟨true, rfl⟩
  obtain ⟨y, hy, hbreaks⟩ := hall _ _ _ _ _ s _ sources_first rfl (fun _ h => h) hreach hfailed
  have hc := (hreach.orderly sources_first rfl (fun _ h => h) fun _ _ h => h).1
  rcases hy.cases with rfl | ⟨p, hp, hyp⟩
  · exact not_breaks sources_first hfirst checked_first rfl (by decide) hbreaks
  · -- Above the first block there is genesis only.
    obtain rfl := hc.prev_eq sources_first hp hfirst rfl
    rcases hyp.cases with rfl | ⟨q, hq, -⟩
    · exact hbreaks.ne_genesis sources_first rfl
    · obtain ⟨n, hn, hprev⟩ := hc.rooted.tree.genesis
      have hroot : Nodes.parent s.node firstBlock.header.prev = none :=
        (Nodes.parent_eq hn).trans hprev
      rw [hroot] at hq
      cases hq

end QuantCore.Chainstate
