import QuantCore.Proofs.Startup

/-!
# Every state a node gets into

The steps of the machine, each with what it keeps: the tree and the local
variables of a call in progress, and that the state is that of the tip's branch.
A run from an empty directory begins with both, so every state of it has both.
-/

namespace QuantCore

open Codec Maps Forest

variable [Crypto] {net : Network} {known : Block → Prop}

namespace Chainstate

variable {s s' : Chainstate} {g : Hash256} {cfg : Config} {ph ph' : Phase}

/-! ## The local variables of a call -/

/-- The candidate of a call is in the tree: what is not has no work. -/
theorem bestCandidate_isSome (h : s.Rooted g) : (s.node s.bestCandidate).isSome := by
  rcases bestCandidate_cases s with he | ⟨-, -, hgt⟩
  · rw [he]
    exact h.tip_isSome
  · rw [node_isSome]
    by_contra hnot
    have hwork : s.work s.bestCandidate = (default : BlockIndex).chainwork := by
      rw [work, entry, AList.lookup_eq_none.mpr hnot]
      rfl
    rw [hwork, U256.gt_iff] at hgt
    have hzero : (default : BlockIndex).chainwork.toNat = 0 := by decide
    omega

omit [Crypto] in
theorem Phase.Rooted.of_sameTree (h : ph.Rooted s) (ht : SameTree s s') : ph.Rooted s' := by
  cases ph with
  | idle => trivial
  | choose start guard =>
      rw [Phase.Rooted, ht.node]
      exact h
  | unwind start guard cand fork =>
      rw [Phase.Rooted, ht.node, ht.chain]
      exact h
  | connect start guard path =>
      rw [Phase.Rooted, ht.node, ht.tip]
      exact h
  | finish start =>
      rw [Phase.Rooted, ht.node]
      exact h

omit [Crypto] in
/-- The next block of a path belongs on the tip. -/
theorem Phase.Rooted.next {start : Hash256} {guard : Nat} {b : Hash256} {rest : List Hash256}
    (h : Phase.Rooted (.connect start guard (b :: rest)) s) :
    Nodes.parent s.node b = some s.tip :=
  (List.isChain_cons_cons.mp h.2).1

theorem activateStep_rooted (h : s.Rooted g) (hp : ph.Rooted s)
    (he : activateStep cfg ph s = (ph', s')) : s'.Rooted g ∧ ph'.Rooted s' := by
  cases ph with
  | idle =>
      cases he
      exact ⟨h, trivial⟩
  | choose start guard =>
      cases guard with
      | zero =>
          cases he
          exact ⟨h, hp⟩
      | succ guard =>
          rw [activateStep] at he
          split at he
          · cases he
            exact ⟨h, hp⟩
          split at he
          · cases he
            exact ⟨h, hp⟩
          · next fork hf =>
              cases he
              have hc := bestCandidate_isSome h
              obtain ⟨f, hf', hmem, habove, -⟩ := forkPoint_spec h.tree h.chain hc
              obtain rfl : fork = f := by
                rw [hf] at hf'
                exact Option.some.inj hf'
              exact ⟨h, hp, hc, hmem, habove⟩
  | unwind start guard cand fork =>
      obtain ⟨hstart, hcand, hmem, habove⟩ := hp
      rw [activateStep] at he
      split at he
      · next htip =>
          cases he
          obtain ⟨n, hn⟩ := habove
          obtain ⟨c, hc⟩ := Option.isSome_iff_exists.mp hcand
          have hlt : n < (s.entry cand).height + 1 := by
            have := h.tree.ranked.rank_up hn
            rw [entry_height]
            omega
          obtain ⟨p, hpf, -, hpath, -⟩ := pathFrom_spec (a := []) h.tree hn hlt
          refine ⟨h, hstart, ?_⟩
          rw [hpf, List.append_nil, htip]
          exact hpath
      · next htip =>
          split at he
          · next s₁ hd =>
              cases he
              obtain ⟨hnode, hseq, hchain, -⟩ := disconnectTip_tree hd
              have hchain := hchain rfl
              obtain ⟨b, got, u, x, rest, hpos, -⟩ := disconnectTip_ok hd
              obtain ⟨hroot, -⟩ := h.pop hnode hseq hchain hpos
              refine ⟨hroot, ?_⟩
              have hmem : fork ∈ s'.chain := by
                rw [hchain]
                rw [chain_eq_snoc h.chain, List.mem_append, List.mem_singleton] at hmem
                exact hmem.resolve_right fun hf => htip hf.symm
              rw [Phase.Rooted, hnode]
              exact ⟨hstart, hcand, hmem, habove⟩
          · next s₁ e hd =>
              cases he
              obtain ⟨-, -, -, herr⟩ := disconnectTip_tree hd
              obtain rfl := herr (by simp)
              exact ⟨h.of_sameTree (t := s.ticked) ⟨rfl, rfl, rfl⟩, hstart⟩
  | connect start guard path =>
      cases path with
      | nil =>
          cases he
          exact ⟨h, hp.1⟩
      | cons b rest =>
          rw [activateStep] at he
          split at he
          · next s₁ hc =>
              cases he
              obtain ⟨hnode, hseq, hchain, -⟩ := connectBlock_tree hc
              have hchain := hchain rfl
              have hflush := flushDue_sameTree cfg s₁
              refine ⟨(h.push hnode hseq hchain hp.next).of_sameTree hflush,
                (show (Phase.connect start guard rest).Rooted s₁ from ?_).of_sameTree hflush⟩
              rw [Phase.Rooted, hnode, (tip_snoc hchain).1]
              exact ⟨hp.1, (List.isChain_cons_cons.mp hp.2).2⟩
          · next s₁ e hc =>
              obtain ⟨-, -, -, herr⟩ := connectBlock_tree hc
              obtain rfl := herr (by simp)
              have htick : SameTree s s.ticked := ⟨rfl, rfl, rfl⟩
              split at he
              · cases he
                exact ⟨h.of_sameTree htick, hp.1⟩
              · cases he
                have ht := htick.trans (markFailed_flagsOnly cfg s.ticked b).sameTree
                refine ⟨h.of_sameTree ht, ?_⟩
                rw [Phase.Rooted, ht.node]
                exact hp.1
  | finish start =>
      cases he
      exact ⟨h.of_sameTree (flagsOnly_dropCandidates s).sameTree, trivial⟩

/-! ## The content of a node -/

theorem Content.activateStep (hs : Sources net known) (hnet : cfg.network = net)
    (h : s.Content net known) (hp : ph.Rooted s) (he : activateStep cfg ph s = (ph', s'))
    (hfit : s'.Fits) : s'.Content net known := by
  cases ph with
  | idle =>
      cases he
      exact h
  | choose start guard =>
      cases guard with
      | zero =>
          cases he
          exact h
      | succ guard =>
          rw [Chainstate.activateStep] at he
          split at he
          · cases he
            exact h
          split at he
          · cases he
            exact h
          · cases he
            exact h
  | unwind start guard cand fork =>
      rw [Chainstate.activateStep] at he
      split at he
      · cases he
        exact h
      · split at he
        · next s₁ hd =>
            cases he
            exact h.disconnectTip hs hd
        · next s₁ e hd =>
            cases he
            obtain ⟨-, -, -, herr⟩ := disconnectTip_tree hd
            obtain rfl := herr (by simp)
            exact h.ticked
  | connect start guard path =>
      cases path with
      | nil =>
          cases he
          exact h
      | cons b rest =>
          rw [Chainstate.activateStep] at he
          split at he
          · next s₁ hc =>
              cases he
              exact (h.connectBlock hs hnet hp.next hc hfit.of_flushDue).flushDue hfit
          · next s₁ e hc =>
              obtain ⟨-, -, -, herr⟩ := connectBlock_tree hc
              obtain rfl := herr (by simp)
              split at he
              · cases he
                exact h.ticked
              · cases he
                exact h.ticked.flagsOnly (markFailed_flagsOnly cfg s.ticked b)
  | finish start =>
      cases he
      exact h.flagsOnly (flagsOnly_dropCandidates s)

theorem enter_rooted {r : Except String Bool} (h : s.Rooted g)
    (he : enter (s, r) = (ph', s')) : s' = s ∧ ph'.Rooted s' := by
  cases r with
  | error e =>
      cases he
      exact ⟨rfl, trivial⟩
  | ok b =>
      cases b with
      | false =>
          cases he
          exact ⟨rfl, trivial⟩
      | true =>
          cases he
          exact ⟨rfl, h.tip_isSome⟩

/-- The blocks there are for a node: genesis, and those it is sent, with their
signatures or without. -/
def Offers.Around (o : Offers) (net : Network) (b : Block) : Prop :=
  b = (paramsFor net).genesis ∨ ∃ w, o.Delivers b w

omit [Crypto] in
theorem limits_core {b : Block} (h : b.Limits) : b.core.Limits where
  txs := by
    rw [Block.core, List.length_map]
    exact h.txs
  tx := fun t ht => by
    obtain ⟨u, hu, rfl⟩ := List.mem_map.mp ht
    have hl := h.tx u hu
    exact ⟨hl.ins, hl.outs, hl.ops, hl.op, hl.extra, Nat.zero_le _, fun _ h => absurd h List.not_mem_nil⟩

theorem genesis_limits (net : Network) : (paramsFor net).genesis.Limits := by
  obtain ⟨msg, htxs, -⟩ := genesis_txs net
  refine ⟨?_, fun t ht => ?_⟩
  · rw [htxs]
    exact (by decide : 1 ≤ maxBlockSize / 40)
  · rw [htxs, genesisTxs, List.mem_singleton] at ht
    rw [ht]
    exact {
      ins := Nat.zero_le _
      outs := Nat.zero_le _
      ops := Nat.zero_le _
      op := fun _ h => nomatch h
      extra := List.length_take_le _ _
      witness := Nat.zero_le _
      signature := fun _ h => nomatch h }

/-- Blocks that came off the wire are within its limits. -/
theorem sources_around {o : Offers} (hfree : Collisionless (o.Around net))
    (hl : ∀ b, o.block b → b.Limits) : Sources net (o.Around net) where
  genesis := .inl rfl
  free := hfree
  limits := by
    rintro b (rfl | ⟨w, hw⟩)
    · exact genesis_limits net
    · cases w with
      | true => exact hl b hw
      | false =>
          obtain ⟨full, hfull, rfl⟩ := hw
          exact limits_core (hl full hfull)

/-- What a step keeps. -/
theorem Content.step (hs : Sources net known) (hnet : cfg.network = net) {o : Offers}
    (ho : ∀ b, o.Around net b → known b)
    (hx : ph = .idle → ∀ x, o.snapshot x → TakesState net known cfg s x)
    (h : s.Content net known) (hp : ph.Rooted s) (hstep : Step cfg o (ph, s) (ph', s'))
    (hfit : s'.Fits) : s'.Content net known ∧ ph'.Rooted s' := by
  generalize hy : (ph', s') = y at hstep
  cases hstep with
  | @header _ b hb =>
      cases hy
      have hk : known b := ho b (.inr ⟨true, hb⟩)
      cases hr : s.acceptHeader cfg b.header with
      | mk s₁ r => exact ⟨h.acceptHeader ⟨b, hk, rfl⟩ hr, trivial⟩
  | @block _ b w hb =>
      have hk : known b := ho b (.inr ⟨w, hb⟩)
      cases hr : s.receiveBlock cfg b w with
      | mk s₁ r =>
          rw [hr] at hy
          have h₁ := h.receiveBlock hs hk hr
          obtain ⟨rfl, hph⟩ := enter_rooted h₁.rooted hy.symm
          exact ⟨h₁, hph⟩
  | @snapshot _ x hox =>
      cases hr : s.receiveSnapshot cfg x with
      | mk s₁ r =>
          rw [hr] at hy
          obtain ⟨rfl, hph⟩ := enter_rooted (receiveSnapshot_rooted h.rooted hr).1 hy.symm
          exact ⟨h.receiveSnapshot hs (hx rfl x hox) hr hfit, hph⟩
  | flush =>
      cases hy
      exact ⟨h.flush hfit, trivial⟩
  | activate hne =>
      exact ⟨h.activateStep hs hnet hp hy.symm hfit, (activateStep_rooted h.rooted hp hy.symm).2⟩
  | restart hl =>
      cases hy
      have h₁ := loadReady_content hs hnet h.files hl hfit
      exact ⟨h₁, h₁.rooted.tip_isSome⟩

/-- Every state of a run in which the snapshots taken over are states is the
state of a branch. -/
theorem Reaches.content (hs : Sources net known) (hnet : cfg.network = net) {o : Offers}
    (ho : ∀ b, o.Around net b → known b) {ok : Phase → Chainstate → Prop}
    (hx : ∀ s, ok .idle s → ∀ x, o.snapshot x → TakesState net known cfg s x)
    (h : Reaches cfg o ok ph s) : s.Content net known ∧ ph.Rooted s := by
  induction h with
  | start hl hfit =>
      have h₁ := loadReady_content hs hnet files_empty hl hfit
      exact ⟨h₁, h₁.rooted.tip_isSome⟩
  | @step ph ph' s s' hr hok hstep hfit ih =>
      obtain ⟨hc, hp⟩ := ih
      exact hc.step hs hnet ho (fun he => hx s (he ▸ hok)) hp hstep hfit

theorem Reaches.fits {o : Offers} {ok : Phase → Chainstate → Prop}
    (h : Reaches cfg o ok ph s) : s.Fits := by
  cases h with
  | start hl hfit => exact hfit
  | step hr hok hstep hfit => exact hfit

theorem Reaches.mono {o : Offers} {ok ok' : Phase → Chainstate → Prop}
    (h : Reaches cfg o ok ph s) (hok : ∀ ph s, ok ph s → ok' ph s) : Reaches cfg o ok' ph s := by
  induction h with
  | start hl hfit => exact .start hl hfit
  | step hr hs hstep hfit ih => exact .step ih (hok _ _ hs) hstep hfit

/-! ## Runs on a disk that works -/

omit [Crypto] in
/-- No file operation ever fails. -/
def Reliable (cfg : Config) : Prop := ∀ t op, cfg.env.fault t op = false

/-- Bytes that a node of the network writes of its state, having connected every
block from genesis up: no snapshot is ever offered to it. -/
def FromGenesis (net : Network) (known : Block → Prop) (x : Bytes) : Prop :=
  ∃ cfg o ph s, cfg.network = net ∧ (∀ b, o.Around net b → known b) ∧ (∀ y, ¬ o.snapshot y) ∧
    Reaches cfg o anyStep ph s ∧ x = s.serializeState

/-- A snapshot that the node would take over now is what such a node wrote. -/
def Honest (net : Network) (known : Block → Prop) (cfg : Config) (o : Offers) (_ : Phase)
    (s : Chainstate) : Prop :=
  ∀ x, o.snapshot x → (s.receiveSnapshot cfg x).2 = .ok true → FromGenesis net known x

theorem Content.isState (h : s.Content net known) (hfit : s.Fits) :
    IsState net known s.tip s.serializeState :=
  h.branch.isState hfit.utxo hfit.tokens hfit.pools

theorem FromGenesis.isState (hs : Sources net known) {x : Bytes} (h : FromGenesis net known x) :
    ∃ h, IsState net known h x := by
  obtain ⟨cfg, o, ph, s, hnet, ho, hno, hr, rfl⟩ := h
  have hc := (hr.content hs hnet ho fun _ _ y hy => absurd hy (hno y)).1
  exact ⟨s.tip, hc.isState hr.fits⟩

/-- A step that begins here takes over no snapshot but such bytes, and none
without its two writes. -/
structure Orderly (net : Network) (known : Block → Prop) (cfg : Config) (o : Offers)
    (_ : Phase) (s : Chainstate) : Prop where
  honest : ∀ x, o.snapshot x → (s.receiveSnapshot cfg x).2 = .ok true → FromGenesis net known x
  written : ∀ x bh snap, o.snapshot x → s.Adopts cfg x bh snap →
    cfg.env.fault s.tick .writeSnapshot = false ∧ cfg.env.fault s.tick .writeBase = false

/-- The state after any run in which every adoption is honest and complete is that
of a branch, whatever else fails. -/
theorem Reaches.orderly (hs : Sources net known) (hnet : cfg.network = net) {o : Offers}
    (ho : ∀ b, o.Around net b → known b) {ok : Phase → Chainstate → Prop}
    (hok : ∀ ph s, ok ph s → Orderly net known cfg o ph s) (h : Reaches cfg o ok ph s) :
    s.Content net known ∧ ph.Rooted s := by
  refine h.content hs hnet ho fun s hs' x hx => ?_
  exact {
    state := fun hr => ((hok _ s hs').honest x hx hr).isState hs
    written := fun bh snap had => (hok _ s hs').written x bh snap hx had }

/-- The state after any run of a node whose disk works and whose snapshots are
honest is that of a branch. -/
theorem Reaches.honest (hs : Sources net known) (hnet : cfg.network = net)
    (hdisk : Reliable cfg) {o : Offers} (ho : ∀ b, o.Around net b → known b)
    (h : Reaches cfg o (Honest net known cfg o) ph s) : s.Content net known ∧ ph.Rooted s :=
  h.orderly hs hnet ho fun _ _ hok => ⟨hok, fun _ _ _ _ _ => ⟨hdisk _ _, hdisk _ _⟩⟩

theorem Content.recorded (h : s.Content net known) (hfit : s.Fits) : s.Recorded := by
  obtain ⟨bs, hb, -⟩ := h.branch
  exact ⟨hb.keyed, hfit.utxo, hfit.tokens, hfit.pools⟩

end Chainstate

end QuantCore
