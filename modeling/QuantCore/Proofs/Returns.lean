import QuantCore.Proofs.Activation
import QuantCore.Proofs.Candidates
import QuantCore.Proofs.Failed
import QuantCore.Proofs.Mempool

/-!
# Calls that come back to their tip

A call of `activate_best_chain` may try a branch, find a block on it that breaks
a rule, and return to the tip it started from. No `on_tip` is fired then, so the
mempool stays sound only if nothing pending was confirmed on the way: an entry
that was is gone from the list and still in the view.

A block that is connected on the way and off the chain in the end was left
again, and for that a block below it had to fail. So the call does no harm if
below a block with something pending in it, on the way to a candidate that is
tried, there is none that breaks a rule. That is a condition on the tree, the
candidates and the blocks, before the call; that it is needed is shown on a small
chain at the end.
-/

namespace QuantCore

open Codec Maps Forest

variable [Crypto] {net : Network} {known : Block → Prop}

namespace Chainstate

/-! ## The condition -/

omit [Crypto] in
/-- The candidates that come up before a search that began on `home` can end
there: those that rank no lower than one `home` is above. -/
def Tried (s : Chainstate) (home cand : Hash256) : Prop :=
  cand ∈ s.candidates ∧ (s.entry cand).failed = false ∧
    ∃ c ∈ s.candidates, (s.entry c).failed = false ∧ Above (Nodes.parent s.node) home c ∧
      s.workLess cand c = false

omit [Crypto] in
/-- A search that has come below the block `x` may leave it again: elsewhere there
is a candidate with more work than some block below `x`. -/
def CanLeave (s : Chainstate) (x : Hash256) : Prop :=
  ∃ c ∈ s.candidates, (s.entry c).failed = false ∧ ¬ Above (Nodes.parent s.node) x c ∧
    ∃ y, Above (Nodes.parent s.node) x y ∧ (s.work y).toNat < (s.work c).toNat

/-- No block with one of the transactions `ids` is on the chain of `home`, and if
such a block is on the way to a candidate that is tried, and may be left again,
then on the rest of the way no block breaks a rule. -/
def KeepsPending (net : Network) (known : Block → Prop) (s : Chainstate) (home : Hash256)
    (ids : List Hash256) : Prop :=
  ∀ b, known b → (∃ t ∈ b.txs, t.txid ∈ ids) →
    ¬ Above (Nodes.parent s.node) b.header.hash home ∧
    ∀ cand d, s.Tried home cand → s.CanLeave b.header.hash →
      Above (Nodes.parent s.node) b.header.hash d → d ≠ b.header.hash →
      Above (Nodes.parent s.node) d cand → ¬ Breaks net known d

variable {s t : Chainstate} {cfg : Config} {home start : Hash256} {ids : List Hash256}

omit [Crypto] in
/-- The search only loses candidates. -/
structure Shrinks (s t : Chainstate) : Prop where
  node : t.node = s.node
  candidates : t.candidates.Sublist s.candidates
  failed : ∀ c, (t.entry c).failed = false → (s.entry c).failed = false

omit [Crypto] in
theorem Shrinks.refl (s : Chainstate) : Shrinks s s :=
  ⟨rfl, List.Sublist.refl _, fun _ h => h⟩

omit [Crypto] in
theorem Shrinks.trans {u : Chainstate} (h : Shrinks s t) (h' : Shrinks t u) : Shrinks s u :=
  ⟨h'.node.trans h.node, h'.candidates.trans h.candidates, fun c hc => h.failed c (h'.failed c hc)⟩

omit [Crypto] in
theorem shrinks_of_index (hi : t.index = s.index) (hc : t.candidates = s.candidates) :
    Shrinks s t where
  node := by
    funext x
    rw [node, node, lookup, lookup, hi]
  candidates := by rw [hc]
  failed := fun c h => by rwa [entry_congr hi] at h

omit [Crypto] in
theorem Shrinks.tried (h : Shrinks s t) {cand : Hash256} (ht : t.Tried home cand) :
    s.Tried home cand := by
  obtain ⟨hc, hf, c, hc', hf', hhome, hless⟩ := ht
  refine ⟨h.candidates.subset hc, h.failed _ hf, c, h.candidates.subset hc', h.failed _ hf', ?_, ?_⟩
  · rwa [h.node] at hhome
  · rwa [workLess_congr (rank_node h.node cand) (rank_node h.node c)] at hless

omit [Crypto] in
theorem Shrinks.canLeave (h : Shrinks s t) {x : Hash256} (ht : t.CanLeave x) : s.CanLeave x := by
  obtain ⟨c, hc, hf, hxc, y, hxy, hwork⟩ := ht
  rw [h.node] at hxc hxy
  rw [(rank_node h.node y).1, (rank_node h.node c).1] at hwork
  exact ⟨c, h.candidates.subset hc, h.failed c hf, hxc, y, hxy, hwork⟩

theorem KeepsPending.shrinks (hh : KeepsPending net known s home ids) (h : Shrinks s t) :
    KeepsPending net known t home ids := by
  intro b hb hids
  obtain ⟨hoff, hrest⟩ := hh b hb hids
  rw [h.node]
  exact ⟨hoff, fun cand d htried hleave => hrest cand d (h.tried htried) (h.canLeave hleave)⟩

theorem markFailed_shrinks (cfg : Config) (s : Chainstate) (b : Hash256) :
    Shrinks s (s.markFailed cfg b) := by
  have hkeep : ∀ (k : Nat) (todo : List Hash256) (s : Chainstate) (c : Hash256),
      ((markLoop k todo s).entry c).failed = false → (s.entry c).failed = false := by
    intro k
    induction k with
    | zero => exact fun todo s c h => h
    | succ k ih =>
        intro todo s c h
        cases todo with
        | nil => exact h
        | cons x todo =>
            have hm := ih _ _ c h
            have hm : ((s.modify x fun b => { b with failed := true }).entry c).failed = false := hm
            rw [← Bool.not_eq_true] at hm ⊢
            intro hf
            obtain ⟨i, hi, hif⟩ := failed_of_lookup hf
            refine hm ?_
            by_cases hcx : c = x
            · have hl : (s.modify x fun b => { b with failed := true }).lookup c =
                  some { i with failed := true } := by
                rw [lookup_modify, if_pos hcx, ← hcx, hi]
                rfl
              rw [entry_of_lookup hl]
            · have hl : (s.modify x fun b => { b with failed := true }).lookup c = some i := by
                rw [lookup_modify, if_neg hcx, hi]
              rw [entry_of_lookup hl, hif]
  exact ⟨(markFailed_flagsOnly cfg s b).sameTree.node, markFailed_sublist cfg s b,
    hkeep _ [b] s⟩

/-! ## Down to the fork -/

/-- The tip goes up its own chain, no further than the fork, and the search has
lost nothing. -/
structure Falls (s t : Chainstate) (fork : Hash256) : Prop where
  index : t.index = s.index
  candidates : t.candidates = s.candidates
  tip : Above (Nodes.parent s.node) t.tip s.tip
  fork : Above (Nodes.parent s.node) fork t.tip

omit [Crypto] in
theorem node_of_index (h : t.index = s.index) : t.node = s.node := by
  funext x
  rw [node, node, lookup, lookup, h]

theorem unwind_falls {g fork : Hash256} {k : Nat} {done : Bool} (h : s.Rooted g)
    (hf : fork ∈ s.chain) (hu : unwind cfg fork k s = (t, done)) :
    Falls s t fork ∧ (done = true → t.tip = fork) := by
  have hhere : ∀ {s : Chainstate}, s.Rooted g → fork ∈ s.chain → Falls s s fork :=
    fun h hf => ⟨rfl, rfl, .refl _, (mem_chain_iff h.tree h.chain).mp hf⟩
  induction k generalizing s with
  | zero =>
      cases hu
      exact ⟨hhere h hf, fun he => beq_iff_eq.mp he⟩
  | succ k ih =>
      rw [unwind] at hu
      split at hu
      · next htip =>
          cases hu
          exact ⟨hhere h hf, fun _ => htip⟩
      · next htip =>
          split at hu
          · next s₁ hd =>
              obtain ⟨hnode, hseq, hchain, -⟩ := disconnectTip_tree hd
              obtain ⟨hcand, hindex⟩ := disconnectTip_candidates hd
              obtain ⟨b, got, u, x, rest, hpos, -⟩ := disconnectTip_ok hd
              obtain ⟨hroot, hparent⟩ := h.pop hnode hseq (hchain rfl) hpos
              have hmem : fork ∈ s₁.chain := by
                rw [hchain rfl]
                rw [chain_eq_snoc h.chain, List.mem_append, List.mem_singleton] at hf
                exact hf.resolve_right fun he => htip he.symm
              obtain ⟨hfall, hdone⟩ := ih hroot hmem hu
              refine ⟨⟨hfall.index.trans hindex, hfall.candidates.trans hcand, ?_, ?_⟩, hdone⟩
              · exact (hnode ▸ hfall.tip).trans (above_parent hparent)
              · exact hnode ▸ hfall.fork
          · next s₁ e hd =>
              cases hu
              obtain ⟨-, -, -, herr⟩ := disconnectTip_tree hd
              obtain rfl := herr (by simp)
              have hstay := hhere h hf
              exact ⟨⟨rfl, rfl, hstay.tip, hstay.fork⟩, fun he => by cases he⟩

/-! ## Up a branch -/

/-- What came of a path up to `cand`: it was climbed to its end, it stalled, or
the next block on it was found to break a rule. -/
inductive Outcome (net : Network) (known : Block → Prop) (s t : Chainstate) (cand : Hash256) :
    Bool → Prop
  | arrived (htip : t.tip = cand) (hi : t.index = s.index)
      (hc : t.candidates = s.candidates) : Outcome net known s t cand false
  | stalled : Outcome net known s t cand true
  | failed {d : Hash256} (hp : Nodes.parent s.node d = some t.tip)
      (hd : Above (Nodes.parent s.node) d cand) (hb : Breaks net known d) :
      Outcome net known s t cand false

/-- The tip has come down towards `cand`, and the blocks connected on the way are
above it. -/
structure Climbs (known : Block → Prop) (s t : Chainstate) (cand : Hash256)
    (done : List Block) : Prop where
  shrinks : Shrinks s t
  start : Above (Nodes.parent s.node) s.tip t.tip
  way : Above (Nodes.parent s.node) t.tip cand
  blocks : ∀ b ∈ done, Above (Nodes.parent s.node) b.header.hash t.tip ∧
    ∃ c, known c ∧ c.core = b.core

theorem checkConnect_read {idx : Hash256} {b : Block} {v : LedgerView}
    (h : s.checkConnect cfg idx = .ok (b, v)) :
    ∃ got, s.readBlock cfg idx true = some (b, got) := by
  simp only [checkConnect] at h
  split at h
  · cases h
  next b' got hread =>
  split at h
  · cases h
  split at h
  · cases h
  split at h
  · cases h
  split at h
  · cases h
  split at h
  · cases h
  · cases h
    exact ⟨got, hread⟩

theorem connectPathWith_climbs (hs : Sources net known) (hnet : cfg.network = net) {o : Offers}
    (ho : ∀ b, o.Around net b → known b) {guard : Nat} {path : List Hash256} {cand : Hash256}
    (h : Reaches cfg o (Recording net known cfg o) (.connect start guard path) s)
    (hx : Smooth cfg (Recording net known cfg o) (.connect start guard path, s))
    (hlast : (s.tip :: path).getLast? = some cand) (m : Mempool) :
    ∃ t done stalled, connectPathWith (Mempool.callbacks cfg) cfg path s m =
        (t, done.foldl (fun m b => m.onConnect b) m, stalled) ∧
      Climbs known s t cand done ∧ Outcome net known s t cand stalled := by
  induction path generalizing s m with
  | nil =>
      rw [List.getLast?_singleton, Option.some.injEq] at hlast
      subst hlast
      exact ⟨s, [], false, rfl, ⟨.refl s, .refl _, .refl _, fun b hb => absurd hb List.not_mem_nil⟩,
        .arrived rfl rfl rfl⟩
  | cons d rest ih =>
      obtain ⟨hc, hp⟩ := h.orderly hs hnet ho fun _ _ hok => hok.toOrderly
      have hparent := hp.next
      have hpath := hp.2
      obtain ⟨l, hl⟩ : ∃ l, s.tip :: d :: rest = l ++ [cand] :=
        ⟨_, (List.dropLast_append_getLast? _ hlast).symm⟩
      rw [hl] at hpath
      have hdcand : Above (Nodes.parent s.node) d cand :=
        hpath.above_of_mem (hl ▸ List.mem_cons_of_mem _ List.mem_cons_self)
      have hscand : Above (Nodes.parent s.node) s.tip cand :=
        hpath.above_of_mem (hl ▸ List.mem_cons_self)
      have hnone : ∀ b ∈ ([] : List Block), Above (Nodes.parent s.node) b.header.hash s.tip ∧
          ∃ c, known c ∧ c.core = b.core := fun b hb => absurd hb List.not_mem_nil
      rw [connectPathWith, connectBlockWith]
      cases hcheck : s.checkConnect cfg d with
      | error e =>
          simp only
          split
          · exact ⟨s.ticked, [], true, rfl,
              ⟨shrinks_of_index rfl rfl, .refl _, hscand, hnone⟩, .stalled⟩
          · next hwhy =>
              rw [not_or] at hwhy
              have hmark := markFailed_flagsOnly cfg s.ticked d
              have htick : Shrinks s s.ticked := shrinks_of_index rfl rfl
              have htip : (s.ticked.markFailed cfg d).tip = s.tip := hmark.sameTree.tip
              refine ⟨s.ticked.markFailed cfg d, [], false, rfl,
                ⟨htick.trans (markFailed_shrinks cfg s.ticked d), ?_, ?_, ?_⟩,
                .failed (htip.symm ▸ hparent) hdcand ?_⟩
              · rw [htip]
                exact .refl _
              · rw [htip]
                exact hscand
              · rw [htip]
                exact hnone
              · -- a valid block fails here only if its undo record cannot be written
                by_contra hvalid
                have hok := (hx _ (.refl _)).2
                rcases hc.breaks hs h.fits.index hnet hparent hcheck hwhy.2 hwhy.1 with hb | hf
                · exact hvalid hb
                · rw [hok.undo start guard d rest rfl hvalid] at hf
                  cases hf
      | ok x =>
          obtain ⟨b, v⟩ := x
          simp only
          have hcb : s.connectBlock cfg d = (s.commitBlock cfg d b v, .ok ()) := by
            rw [connectBlock, hcheck]
          have hstep : activateStep cfg (.connect start guard (d :: rest)) s =
              (.connect start guard rest, (s.commitBlock cfg d b v).flushDue cfg) := by
            rw [activateStep, hcb]
          generalize hs₁ : (s.commitBlock cfg d b v).flushDue cfg = s₁ at hstep
          have hcall := Calls.step (by simp) hstep
          obtain ⟨hcand₁, hindex₁⟩ := connectBlock_candidates hcb
          obtain ⟨hcand₂, hindex₂⟩ := flushDue_candidates cfg (s.commitBlock cfg d b v)
          rw [hs₁] at hcand₂ hindex₂
          have hindex : s₁.index = s.index := hindex₂.trans hindex₁
          have hcand : s₁.candidates = s.candidates := hcand₂.trans hcand₁
          have hnode : s₁.node = s.node := node_of_index hindex
          have htip : s₁.tip = d := by
            rw [← hs₁, (flushDue_sameTree cfg _).tip, tip,
              (connectBlock_tree hcb).2.2.1 rfl, List.getLastD_concat]
          rw [List.getLast?_cons_cons, ← htip] at hlast
          obtain ⟨t, done, stalled, hrun, hclimb, hout⟩ :=
            ih (h.calls hx hcall) (fun y hy => hx y (hcall.trans hy)) hlast (m.onConnect b)
          have hrun : connectPathWith (Mempool.callbacks cfg) cfg rest s₁
              ((Mempool.callbacks cfg).onConnect b m) = _ := hrun
          rw [hrun]
          have hback := hclimb.start
          have hway := hclimb.way
          have hblocks := hclimb.blocks
          rw [hnode] at hback hway hblocks
          rw [htip] at hback
          refine ⟨t, b :: done, stalled, rfl,
            ⟨(shrinks_of_index hindex hcand).trans hclimb.shrinks,
              (above_parent hparent).trans hback, hway, fun x hx => ?_⟩, ?_⟩
          · rcases List.mem_cons.mp hx with rfl | hx
            · obtain ⟨got, hread⟩ := checkConnect_read hcheck
              have hin : (s.node d).isSome := by
                obtain ⟨n, hn, -⟩ := Nodes.isSome_of_parent hparent
                rw [hn]
                rfl
              obtain ⟨c, hk, hhash, -, hcore, -, -⟩ := hc.read hs hin hread
              have hhead : x.core.header = c.core.header := congrArg Block.header hcore
              have hhead : x.header = c.header := hhead
              rw [hhead, hhash]
              exact ⟨hback, c, hk, hcore.symm⟩
            · exact hblocks x hx
          · cases hout with
            | arrived htip hi hc => exact .arrived htip (hi.trans hindex) (hc.trans hcand)
            | stalled => exact .stalled
            | failed hp hd hb =>
                rw [hnode] at hp hd
                exact .failed hp hd hb

/-! ## A round -/

omit [Crypto] in
/-- At the best candidate there is none that is better. -/
theorem bestCandidate_arrived (hne : s.bestCandidate ≠ s.tip) (hi : t.index = s.index)
    (hc : t.candidates = s.candidates) (htip : t.tip = s.bestCandidate) :
    t.bestCandidate = t.tip := by
  have hentry : ∀ x, t.entry x = s.entry x := entry_congr hi
  have hfind : t.candidates.reverse.find? (fun c => !(t.entry c).failed) =
      s.candidates.reverse.find? fun c => !(s.entry c).failed := by
    rw [hc]
    congr 1
    funext c
    rw [hentry]
  rw [bestCandidate, hfind]
  rw [bestCandidate] at htip hne
  split
  · next c hb =>
      rw [hb] at htip hne
      simp only [] at htip hne
      split at hne
      · next hgt =>
          rw [if_pos hgt] at htip
          rw [htip, ite_self]
      · exact absurd rfl hne
  · rfl

theorem activateLoopWith_done {M : Type} (cb : Callbacks M) (h : s.bestCandidate = s.tip)
    (k : Nat) (m : M) : activateLoopWith cb cfg k s m = (s, m) := by
  cases k with
  | zero => rfl
  | succ k =>
      rw [activateLoopWith]
      simp only
      rw [if_pos (.inl h)]

/-- Disconnecting takes no entry away. -/
theorem unwindWith_order (fork : Hash256) (k : Nat) (s : Chainstate) {m : Mempool}
    (h : m.Books m.order) : ∃ t m₁ done, unwindWith (Mempool.callbacks cfg) cfg fork k s m =
      (t, m₁, done) ∧ m₁.order = m.order ∧ m₁.Books m₁.order := by
  induction k generalizing s m with
  | zero => exact ⟨s, m, _, rfl, rfl, h⟩
  | succ k ih =>
      rw [unwindWith]
      split
      · exact ⟨s, m, true, rfl, rfl, h⟩
      · rw [disconnectTipWith]
        simp only
        split
        · next hd =>
            split at hd
            · cases hd
            · cases hb : s.readBlock cfg s.tip false with
              | none =>
                  rw [hb] at hd
                  cases hd
              | some x =>
                  cases hu : s.readUndo cfg s.tip with
                  | none =>
                      rw [hb, hu] at hd
                      cases hd
                  | some u =>
                      rw [hb, hu] at hd
                      cases hd
                      exact ih _ (h.of_eq rfl rfl rfl)
        · next hd =>
            split at hd
            · cases hd
              exact ⟨_, m, false, rfl, rfl, h⟩
            · cases hb : s.readBlock cfg s.tip false with
              | none =>
                  rw [hb] at hd
                  cases hd
                  exact ⟨_, m, false, rfl, rfl, h⟩
              | some x =>
                  cases hu : s.readUndo cfg s.tip with
                  | none =>
                      rw [hb, hu] at hd
                      cases hd
                      exact ⟨_, m, false, rfl, rfl, h⟩
                  | some u =>
                      rw [hb, hu] at hd
                      cases hd

/-- A round of the outer loop that moves the tip. -/
structure Round (known : Block → Prop) (s t : Chainstate) (done : List Block) : Prop where
  cand : s.bestCandidate ∈ s.candidates ∧ (s.entry s.bestCandidate).failed = false
  work : (s.work s.tip).toNat < (s.work s.bestCandidate).toNat
  shrinks : Shrinks s t
  common : ∀ x, Above (Nodes.parent s.node) x s.tip →
    Above (Nodes.parent s.node) x s.bestCandidate → Above (Nodes.parent s.node) x t.tip
  tip : Above (Nodes.parent s.node) t.tip s.tip ∨
    Above (Nodes.parent s.node) t.tip s.bestCandidate
  blocks : ∀ b ∈ done, Above (Nodes.parent s.node) b.header.hash t.tip ∧
    ∃ c, known c ∧ c.core = b.core

/-- The round ended on a block that breaks a rule, and another follows. -/
structure Fails (net : Network) (known : Block → Prop) (s t : Chainstate) (d : Hash256) :
    Prop where
  parent : Nodes.parent s.node d = some t.tip
  way : Above (Nodes.parent s.node) d s.bestCandidate
  breaks : Breaks net known d

theorem activateLoopWith_round (hs : Sources net known) (hnet : cfg.network = net) {o : Offers}
    (ho : ∀ b, o.Around net b → known b) {guard : Nat}
    (h : Reaches cfg o (Recording net known cfg o) (.choose start (guard + 1)) s)
    (hx : Smooth cfg (Recording net known cfg o) (.choose start (guard + 1), s)) {m : Mempool}
    (hm : m.Books m.order) :
    activateLoopWith (Mempool.callbacks cfg) cfg (guard + 1) s m = (s, m) ∨
    ∃ t m₁ done, Round known s t done ∧ m₁.order = m.order ∧ m₁.Books m₁.order ∧
      (activateLoopWith (Mempool.callbacks cfg) cfg (guard + 1) s m =
          (t, done.foldl (fun m b => m.onConnect b) m₁) ∨
        ∃ d, Fails net known s t d ∧
          Reaches cfg o (Recording net known cfg o) (.choose start guard) t ∧
          Smooth cfg (Recording net known cfg o) (.choose start guard, t) ∧
          activateLoopWith (Mempool.callbacks cfg) cfg (guard + 1) s m =
            activateLoopWith (Mempool.callbacks cfg) cfg guard t
              (done.foldl (fun m b => m.onConnect b) m₁)) := by
  obtain ⟨hc, hp⟩ := h.orderly hs hnet ho fun _ _ hok => hok.toOrderly
  have hr := hc.rooted
  rw [activateLoopWith]
  simp only
  split
  · exact .inl rfl
  next hdone =>
  right
  rw [not_or] at hdone
  obtain ⟨hcmem, hcf, hwork⟩ := (bestCandidate_cases s).resolve_left hdone.1
  rw [U256.gt_iff] at hwork
  have hcand := bestCandidate_isSome hr
  obtain ⟨fork, hf, hmem, habove, hmax⟩ := forkPoint_spec hr.tree hr.chain hcand
  have hstep : activateStep cfg (.choose start (guard + 1)) s =
      (.unwind start guard s.bestCandidate fork, s) := by
    rw [activateStep, if_neg (not_or.mpr hdone), hf]
  have hp₁ : Phase.Rooted (.unwind start guard s.bestCandidate fork) s :=
    ⟨hp, hcand, hmem, habove⟩
  have hchoose := Calls.step (by simp) hstep
  rw [hf]
  simp only
  obtain ⟨s₁, m₁, done, hu, horder, hbooks⟩ := @unwindWith_order _ cfg fork s.chain.length s m hm
  have hun : unwind cfg fork s.chain.length s = (s₁, done) := by
    rw [← unwindWith_eq (Mempool.callbacks cfg) cfg fork _ s m, hu]
  obtain ⟨hfall, htip⟩ := unwind_falls hr hmem hun
  have hnode := node_of_index hfall.index
  -- the last block in common is the fork, and the tip stays below it
  have hcommon : ∀ x, Above (Nodes.parent s.node) x s.tip →
      Above (Nodes.parent s.node) x s.bestCandidate → Above (Nodes.parent s.node) x fork := by
    intro x hxs hxc
    exact hr.tree.ranked.above_of_above hxc habove
      (hmax x ((mem_chain_iff hr.tree hr.chain).mpr hxs) hxc)
  rw [hu]
  cases done with
  | false =>
      refine ⟨s₁, m₁, [], ⟨⟨hcmem, hcf⟩, hwork, shrinks_of_index hfall.index hfall.candidates,
        fun x hxs hxc => (hcommon x hxs hxc).trans hfall.fork, .inl hfall.tip,
        fun b hb => absurd hb List.not_mem_nil⟩, horder, hbooks, .inl rfl⟩
  | true =>
      have htip := htip rfl
      rcases unwind_calls hr hp₁ (Nat.le_refl _) with ⟨s', hu', hcalls⟩ | ⟨s', hu', -⟩
      · rw [hun] at hu'
        cases hu'
        have hpath := hchoose.trans hcalls
        have hlast : (s₁.tip :: s₁.pathFrom fork ((s₁.entry s.bestCandidate).height + 1)
            s.bestCandidate []).getLast? = some s.bestCandidate := by
          obtain ⟨n, hn⟩ := habove
          have hlt : n < (s₁.entry s.bestCandidate).height + 1 := by
            have := hr.tree.ranked.rank_up hn
            rw [entry_congr hfall.index, entry_height]
            omega
          rw [← hnode] at hn
          have htree := (hpath.rooted hr hp).1.tree
          obtain ⟨p, hpf, -, -, hl⟩ := pathFrom_spec (a := []) htree hn hlt
          rw [hpf, List.append_nil, htip]
          exact hl
        obtain ⟨t, done, stalled, hrun, hclimb, hout⟩ := connectPathWith_climbs hs hnet ho
          (h.calls hx hpath) (fun y hy => hx y (hpath.trans hy)) hlast m₁
        simp only
        rw [hrun]
        have hstart := hclimb.start
        have hway := hclimb.way
        have hblocks := hclimb.blocks
        rw [hnode] at hstart hway hblocks
        rw [htip] at hstart
        have hround : Round known s t done :=
          ⟨⟨hcmem, hcf⟩, hwork,
            (shrinks_of_index hfall.index hfall.candidates).trans hclimb.shrinks,
            fun x hxs hxc => (hcommon x hxs hxc).trans hstart, .inr hway, hblocks⟩
        refine ⟨t, m₁, done, hround, horder, hbooks, ?_⟩
        cases hout with
        | arrived hat hi hcs =>
            refine .inl (activateLoopWith_done _ (bestCandidate_arrived hdone.1 ?_ ?_ hat) guard _)
            · exact hi.trans hfall.index
            · exact hcs.trans hfall.candidates
        | stalled => exact .inl rfl
        | failed hparent hd hb =>
            rw [hnode] at hparent hd
            have hplain := connectPathWith_eq (Mempool.callbacks cfg) cfg
              (s₁.pathFrom fork ((s₁.entry s.bestCandidate).height + 1) s.bestCandidate []) s₁ m₁
            rw [hrun] at hplain
            have hmore := hpath.trans (connectPath_calls hplain.symm)
            exact .inr ⟨_, ⟨hparent, hd, hb⟩, h.calls hx hmore,
              fun y hy => hx y (hmore.trans hy), rfl⟩
      · rw [hun] at hu'
        cases hu'

/-! ## Where a call can end -/

/-- A call ends on its own chain, or on the way to a candidate. -/
theorem activateLoopWith_end (hs : Sources net known) (hnet : cfg.network = net) {o : Offers}
    (ho : ∀ b, o.Around net b → known b) {guard : Nat}
    (h : Reaches cfg o (Recording net known cfg o) (.choose start guard) s)
    (hx : Smooth cfg (Recording net known cfg o) (.choose start guard, s)) {m : Mempool}
    (hm : m.Books m.order) :
    Above (Nodes.parent s.node)
        (activateLoopWith (Mempool.callbacks cfg) cfg guard s m).1.tip s.tip ∨
      ∃ c ∈ s.candidates, (s.entry c).failed = false ∧ Above (Nodes.parent s.node)
        (activateLoopWith (Mempool.callbacks cfg) cfg guard s m).1.tip c := by
  induction guard generalizing s m with
  | zero => exact .inl (.refl _)
  | succ guard ih =>
      rcases activateLoopWith_round hs hnet ho h hx hm with
        hstop | ⟨t, m₁, done, hround, -, hbooks, hend | ⟨d, hfails, ht, htx, hmore⟩⟩
      · rw [hstop]
        exact .inl (.refl _)
      · rw [hend]
        exact hround.tip.imp_right fun htip => ⟨_, hround.cand.1, hround.cand.2, htip⟩
      · rw [hmore]
        have hparent := above_parent hfails.parent
        rcases ih ht htx (Mempool.onConnects_books hbooks done) with htip | ⟨c, hc, hf, htip⟩
        · rw [hround.shrinks.node] at htip
          exact .inr ⟨_, hround.cand.1, hround.cand.2,
            htip.trans (hparent.trans hfails.way)⟩
        · rw [hround.shrinks.node] at htip
          exact .inr ⟨c, hround.shrinks.candidates.subset hc, hround.shrinks.failed c hf, htip⟩

/-- A block above the tip stays there, if the search cannot leave it. -/
theorem activateLoopWith_stays (hs : Sources net known) (hnet : cfg.network = net) {o : Offers}
    (ho : ∀ b, o.Around net b → known b) {guard : Nat}
    (h : Reaches cfg o (Recording net known cfg o) (.choose start guard) s)
    (hx : Smooth cfg (Recording net known cfg o) (.choose start guard, s)) {m : Mempool}
    (hm : m.Books m.order) {x : Hash256} (hon : Above (Nodes.parent s.node) x s.tip)
    (hstay : ¬ s.CanLeave x) : Above (Nodes.parent s.node) x
      (activateLoopWith (Mempool.callbacks cfg) cfg guard s m).1.tip := by
  induction guard generalizing s m with
  | zero => exact hon
  | succ guard ih =>
      rcases activateLoopWith_round hs hnet ho h hx hm with
        hstop | ⟨t, m₁, done, hround, -, hbooks, hcase⟩
      · rw [hstop]
        exact hon
      · have hcand : Above (Nodes.parent s.node) x s.bestCandidate := by
          by_contra hoff
          exact hstay ⟨_, hround.cand.1, hround.cand.2, hoff, s.tip, hon, hround.work⟩
        have hkept := hround.common x hon hcand
        rcases hcase with hend | ⟨d, -, ht, htx, hmore⟩
        · rw [hend]
          exact hkept
        · rw [hmore]
          have hnode := hround.shrinks.node
          have hrest := ih ht htx (Mempool.onConnects_books hbooks done)
            (by rw [hnode]; exact hkept) fun hleave => hstay (hround.shrinks.canLeave hleave)
          rw [hnode] at hrest
          exact hrest

/-- A harmless call that ends on `home` confirms nothing that is pending. -/
theorem activateLoopWith_order (hs : Sources net known) (hnet : cfg.network = net) {o : Offers}
    (ho : ∀ b, o.Around net b → known b) {guard : Nat}
    (h : Reaches cfg o (Recording net known cfg o) (.choose start guard) s)
    (hx : Smooth cfg (Recording net known cfg o) (.choose start guard, s)) {m : Mempool}
    (hm : m.Books m.order)
    (hpend : KeepsPending net known s home (m.order.map MempoolEntry.txid))
    (hhome : (activateLoopWith (Mempool.callbacks cfg) cfg guard s m).1.tip = home) :
    (activateLoopWith (Mempool.callbacks cfg) cfg guard s m).2.order = m.order := by
  induction guard generalizing s m with
  | zero => rfl
  | succ guard ih =>
      rcases activateLoopWith_round hs hnet ho h hx hm with
        hstop | ⟨t, m₁, done, hround, horder, hbooks, hcase⟩
      · rw [hstop]
      have hnode := hround.shrinks.node
      have hbooks' := Mempool.onConnects_books hbooks done
      -- what was connected and is above the end is on the chain of `home`
      have hclean : (∀ b ∈ done, ∀ t ∈ b.txs, t.txid ∉ m.order.map MempoolEntry.txid) →
          (done.foldl (fun m b => m.onConnect b) m₁).order = m.order := by
        intro hfree
        rw [Mempool.onConnects_order hbooks (by rw [horder]; exact hfree), horder]
      have hholds : ∀ b ∈ done, ∀ t ∈ b.txs, t.txid ∈ m.order.map MempoolEntry.txid →
          ∃ c, known c ∧ c.header.hash = b.header.hash ∧
            ∃ u ∈ c.txs, u.txid ∈ m.order.map MempoolEntry.txid := by
        intro b hb t ht hid
        obtain ⟨-, c, hk, hcore⟩ := hround.blocks b hb
        have hhead : c.core.header = b.core.header := congrArg Block.header hcore
        have hhead : c.header = b.header := hhead
        refine ⟨c, hk, by rw [hhead], ?_⟩
        have htxs : c.txs.map Transaction.core = b.txs.map Transaction.core :=
          congrArg Block.txs hcore
        obtain ⟨u, hu, hcore⟩ := List.mem_map.mp (htxs ▸ List.mem_map_of_mem ht)
        refine ⟨u, hu, ?_⟩
        rw [← txid_core, hcore, txid_core]
        exact hid
      rcases hcase with hend | ⟨d, hfails, ht, htx, hmore⟩
      · rw [hend] at hhome ⊢
        have hhome : t.tip = home := hhome
        refine hclean fun b hb t ht hid => ?_
        obtain ⟨c, hk, hhash, hu⟩ := hholds b hb t ht hid
        refine (hpend c hk hu).1 ?_
        rw [hhash, ← hhome]
        exact (hround.blocks b hb).1
      · rw [hmore] at hhome ⊢
        have hfree : ∀ b ∈ done, ∀ t ∈ b.txs, t.txid ∉ m.order.map MempoolEntry.txid := by
          intro b hb x hxb hid
          obtain ⟨c, hk, hhash, hu⟩ := hholds b hb x hxb hid
          obtain ⟨hoff, hrest⟩ := hpend c hk hu
          rw [hhash] at hoff hrest
          have hon := (hround.blocks b hb).1
          have hparent := above_parent hfails.parent
          refine hrest s.bestCandidate d ?_ ?_ (hon.trans hparent) ?_ hfails.way hfails.breaks
          · -- the search ends on `home`, which is above a candidate ranked lower
            have hne : s.bestCandidate ≠ s.tip := fun he => by
              have := hround.work
              rw [he] at this
              exact absurd this (Nat.lt_irrefl _)
            have hbest : ∀ {c : Hash256}, c ∈ s.candidates → (s.entry c).failed = false →
                s.workLess s.bestCandidate c = false := h.ordered.best hne
            refine ⟨hround.cand.1, hround.cand.2, ?_⟩
            rcases activateLoopWith_end hs hnet ho ht htx hbooks' with
              htip | ⟨c', hc', hf', htip⟩
            · rw [hhome, hnode] at htip
              exact ⟨_, hround.cand.1, hround.cand.2,
                htip.trans (hparent.trans hfails.way), workLess_irrefl _⟩
            · rw [hhome, hnode] at htip
              have hmem := hround.shrinks.candidates.subset hc'
              have hf := hround.shrinks.failed c' hf'
              exact ⟨c', hmem, hf, htip, hbest hmem hf⟩
          · -- and the block is not on the chain of `home`
            by_contra hstay
            refine hoff ?_
            have hkept := activateLoopWith_stays hs hnet ho ht htx hbooks'
              (x := b.header.hash) (by rw [hnode]; exact hon)
              fun hleave => hstay (hround.shrinks.canLeave hleave)
            rw [hhome, hnode] at hkept
            exact hkept
          · rintro rfl
            have hc := (h.orderly hs hnet ho fun _ _ hok => hok.toOrderly).1
            obtain ⟨n, hn⟩ := hon
            have hup := hc.rooted.tree.ranked.rank_up hn
            have hone := hc.rooted.tree.ranked _ _ hfails.parent
            omega
        have hsame := hclean hfree
        have hrest := ih ht htx hbooks' (by rw [hsame]; exact hpend.shrinks hround.shrinks) hhome
        rw [hrest, hsame]

/-- A call that does no harm leaves the mempool sound, wherever it ends. -/
theorem activateWith_keepsPending (hs : Sources net known) (hnet : cfg.network = net) {o : Offers}
    (ho : ∀ b, o.Around net b → known b)
    (h : Reaches cfg o (Recording net known cfg o) (.choose s.tip activateGuard) s)
    (hx : Smooth cfg (Recording net known cfg o) (.choose s.tip activateGuard, s)) {m : Mempool}
    (hm : m.Sound cfg s)
    (hpend : KeepsPending net known s s.tip (m.order.map MempoolEntry.txid)) :
    (s.activateWith (Mempool.callbacks cfg) cfg m).2.Sound cfg
      (s.activateWith (Mempool.callbacks cfg) cfg m).1 := by
  refine activateWith_sound hm.books fun htip => ?_
  have hc := (h.orderly hs hnet ho fun _ _ hok => hok.toOrderly).1
  have hend := (h.calls hx (activateBestChain_calls hc.rooted)).orderly hs hnet ho
    fun _ _ hok => hok.toOrderly
  -- the tip is that of the start, and so is the state
  obtain ⟨hheight, hreader⟩ := hend.1.same_state hs hc htip
  have horder := activateLoopWith_order hs hnet ho h hx hm.books hpend
    (by rw [activateLoopWith_fst]; exact htip)
  obtain ⟨s₁, m₁, moved, h₁, hmoving⟩ := activateLoopWith_moving cfg s hm.books
  refine hm.view.congr hreader hheight horder ?_
  rw [h₁]
  exact hmoving.view

end Chainstate

namespace FullNode

open Chainstate

variable {cfg : Config} {n n' : FullNode} {o : Offers}

/-- What the mempool asks of a command: it is on offer, the states on its way fit,
the snapshots it takes over are honest and complete, the undo records of valid
blocks can be written, and if it is a block, trying the branches known by then
does the pending transactions no harm. -/
def Settles (net : Network) (known : Block → Prop) (cfg : Config) (o : Offers) (n : FullNode)
    (c : NodeCmd) : Prop :=
  Orderly cfg o (Recording net known cfg o) n c ∧ ∀ b w, c = .block b w →
    KeepsPending net known (n.cs.receiveBlock cfg b w).1 n.cs.tip (n.mp.order.map MempoolEntry.txid)

/-- The state before anything is loaded has no coin, so nothing is pending on it. -/
theorem order_nil_of_fresh {m : Mempool} {s : Chainstate} (hc : s.Content net known)
    (hh : s.height = 0) (h : m.Sound cfg s) : m.order = [] := by
  obtain ⟨bs, hb, -⟩ := hc.branch
  rw [hh] at hb
  have hempty : s.reader = .empty := hb.zero.2.2
  have hv := h.view
  rw [Mempool.Viewed, hempty] at hv
  cases ho : m.order with
  | nil => rfl
  | cons e es =>
      rw [ho, replay] at hv
      split at hv
      · cases hv
      next v fee ha =>
      exfalso
      rw [LedgerView.apply, LedgerView.reader_mk] at ha
      split at ha
      · cases ha
      next st fee' hcheck =>
      obtain ⟨hcb, -, coins, hcoins, -⟩ := checkTx_ok hcheck
      cases hins : e.tx.ins with
      | nil =>
          rw [Transaction.isCoinbase, hins] at hcb
          cases hcb
      | cons i is =>
          rw [hins] at hcoins
          obtain ⟨c, cs, hspend, -, -⟩ := List.forall₂_cons_left_iff.mp hcoins
          have hcoin : StateReader.empty.coin i.prev = some c := hspend.1
          cases hcoin

theorem run_sound (hs : Sources net known) (hnet : cfg.network = net)
    (ho : ∀ b, o.Around net b → known b) {c : NodeCmd}
    (hr : Reaches cfg o (Recording net known cfg o) .idle n.cs)
    (hidle : Recording net known cfg o .idle n.cs) (h : n.mp.Sound cfg n.cs)
    (hok : Settles net known cfg o n c) (hrun : n.run cfg c = .ok n') :
    n'.mp.Sound cfg n'.cs := by
  obtain ⟨⟨hsends, hsmooth⟩, hpend⟩ := hok
  cases c with
  | accept tx =>
      cases hrun
      exact Mempool.accept_sound h tx
  | header hd =>
      cases hrun
      obtain ⟨hreader, hchain⟩ := @Chainstate.acceptHeader_still _ cfg n.cs _ hd _ rfl
      exact h.of_eq hreader hchain
  | block b w =>
      cases hrun
      cases hb : n.cs.receiveBlock cfg b w with
      | mk s r =>
          obtain ⟨hreader, hchain⟩ := Chainstate.receiveBlock_still hb
          have hx := hsmooth _ rfl
          have hreach := begins_step (c := .block b w) hr hidle hsends rfl (hx _ (.refl _)).1
          have hsound := h.of_eq hreader hchain
          have hpend := hpend b w rfl
          rw [hb] at hx hreach hpend
          cases r with
          | error e => exact hsound
          | ok go =>
              cases go with
              | false => exact hsound
              | true =>
                  have htip : n.cs.tip = s.tip := by rw [Chainstate.tip, Chainstate.tip, hchain]
                  rw [htip] at hpend
                  exact activateWith_keepsPending hs hnet ho hreach hx hsound hpend
  | snapshot x =>
      cases hrun
      by_cases hheight : n.cs.height > 0
      · rw [Chainstate.receiveSnapshot, if_pos hheight]
        exact h.of_eq rfl rfl
      · have hc := (hr.orderly hs hnet ho fun _ _ hok => hok.toOrderly).1
        have hnil := order_nil_of_fresh hc (by omega) h
        have hv := h.view
        rw [Mempool.Viewed, hnil, replay, Option.some_inj] at hv
        have hview : n.mp.view = { n.mp.viewOn n.cs with base := n.mp.view.base } := rfl
        rw [← hv] at hview
        cases n.cs.receiveSnapshot cfg x with
        | mk s r =>
            have hempty : n.mp.Sound cfg s := ⟨Mempool.viewed_nil cfg s hnil hview, h.books⟩
            cases r with
            | error e => exact hempty
            | ok go =>
                cases go with
                | false => exact hempty
                | true => exact activateWith_empty cfg s h.books hnil hview
  | flush =>
      cases hrun
      exact h.of_eq rfl rfl
  | restart => exact start_sound hrun

/-- After any run whose steps all settle, the mempool is sound: also after calls
that tried a branch in vain. -/
theorem mempool_sound (hs : Sources net known) (hnet : cfg.network = net)
    (ho : ∀ b, o.Around net b → known b)
    (hstart : ∀ s, loadReady cfg {} 0 = .ok s →
      Smooth cfg (Recording net known cfg o) (.choose s.tip activateGuard, s))
    (h : Reached cfg (Settles net known cfg o) n) : n.mp.Sound cfg n.cs := by
  induction h with
  | start h => exact start_sound h
  | run hn hok hrun ih =>
      obtain ⟨hr, hidle⟩ := (hn.mono fun _ _ hc => hc.1).idle hstart
      exact run_sound hs hnet ho hr hidle ih hok hrun

end FullNode

end QuantCore

namespace QuantCore.FullNode

open Chainstate

attribute [local instance] stampCrypto

/-! ## A branch that is tried in vain -/

/-- A block of the test chain, with the difficulty that is asked for there. -/
def sampleBlock (prev : Hash256) (height : Nat) (nonce : UInt64) (cb : Transaction) : Block :=
  let b : Block := { txs := [cb] }
  { b with header :=
      { prev, nonce, time := 1792800000 + 120 * UInt64.ofNat height
        bits := if height ≤ 3 then 490733568 else 490733567
        merkleRoot := b.computeMerkleRoot, witnessRoot := b.computeWitnessRoot } }

/-- A line of empty blocks; the first pays its miner. -/
def sampleLine : Nat → Block
  | 0 => (paramsFor .test).genesis
  | n + 1 => sampleBlock (sampleLine n).header.hash (n + 1) 0 (sampleCoinbase (n + 1))

/-- A coinbase of block 12 that pays too much. -/
def greedyCoinbase : Transaction := { lockHeight := 12, outs := [⟨90000000000, qntAsset, 5⟩] }

/-- A branch above block 10 of the line. Its second block is invalid. -/
def sampleBranch : Nat → Block
  | 0 => sampleBlock (sampleLine 10).header.hash 11 1 (sampleCoinbase 11)
  | 1 => sampleBlock (sampleBranch 0).header.hash 12 1 greedyCoinbase
  | n + 1 => sampleBlock (sampleBranch n).header.hash (n + 12) 1 (sampleCoinbase (n + 12))

def sampleBlocks : List Block :=
  ((List.range 13).map fun n => sampleLine (n + 1)) ++ (List.range 3).map sampleBranch

/-- The blocks of the line and the branch, and no snapshot. -/
def sampleOffer : Offers := ⟨(· ∈ sampleBlocks), fun _ => False⟩

/-- Twelve blocks of the line, the payment, the branch, and one more of the line. -/
def vainCommands : List NodeCmd :=
  ((sampleBlocks.take 12).map fun b => .block b true) ++ [.accept samplePayment] ++
    ((sampleBlocks.drop 13 ++ (sampleBlocks.drop 12).take 1).map fun b => .block b true)

theorem around_sample {b : Block} (h : sampleOffer.Around .test b) :
    b ∈ (paramsFor .test).genesis :: sampleBlocks := by
  have hcore : sampleBlocks.all (fun b => b.core = b) = true := by decide +kernel
  rcases h with rfl | ⟨w, hw⟩
  · exact List.mem_cons_self
  · cases w with
    | true => exact List.mem_cons_of_mem _ hw
    | false =>
        obtain ⟨full, hfull, rfl⟩ := hw
        rw [of_decide_eq_true (List.all_eq_true.mp hcore full hfull)]
        exact List.mem_cons_of_mem _ hfull

theorem limits_sample : ∀ b ∈ sampleBlocks, b.Limits := by decide +kernel

theorem sources_sample : Sources .test (sampleOffer.Around .test) := by
  have hfree : collisionFree ((paramsFor .test).genesis :: sampleBlocks) = true := by
    decide +kernel
  exact sources_around ((collisionless_of hfree).mono fun b hb => around_sample hb)
    limits_sample

/-- Nothing fails and no snapshot is on offer. -/
theorem recording_sample (ph : Phase) (s : Chainstate) :
    Recording .test (sampleOffer.Around .test) testConfig sampleOffer ph s where
  honest := fun _ hx => absurd hx id
  written := fun _ _ _ hx => absurd hx id
  undo := fun _ _ _ _ _ _ => rfl

theorem smooth_sample {x : Phase × Chainstate} (h : Smooth testConfig anyStep x) :
    Smooth testConfig (Recording .test (sampleOffer.Around .test) testConfig sampleOffer) x :=
  fun y hy => ⟨(h y hy).1, recording_sample _ _⟩

/-- No block has something that is pending. -/
def apart (n : FullNode) : Bool :=
  n.mp.order.all fun e => ((paramsFor .test).genesis :: sampleBlocks).all fun b =>
    !(b.txs.map Transaction.txid).contains e.txid

/-- The states on the way of a command fit, and the search comes to its end. -/
def settling (n : FullNode) : NodeCmd → Bool
  | .accept _ => true
  | .block b w =>
      let x := enter (n.cs.quickBlock testConfig b w)
      x.2.fits && (settle testConfig 20 x.1 x.2).isSome
  | _ => false

/-- Run the commands, as long as each settles. -/
def settleAll : List NodeCmd → FullNode → Option FullNode
  | [], n => some n
  | c :: rest, n =>
      if n.cs.fits && apart n && settling n c then
        (n.quickRun testConfig c).toOption.bind (settleAll rest)
      else none

theorem keepsPending_apart {n : FullNode} {s : Chainstate} {home : Hash256} (h : apart n = true) :
    KeepsPending .test (sampleOffer.Around .test) s home (n.mp.order.map MempoolEntry.txid) := by
  rintro b hb ⟨t, ht, hid⟩
  obtain ⟨e, he, hte⟩ := List.mem_map.mp hid
  have hno := List.all_eq_true.mp (List.all_eq_true.mp h e he) b (around_sample hb)
  rw [Bool.not_eq_true', ← Bool.not_eq_true, List.contains_iff_mem] at hno
  exact absurd (hte ▸ List.mem_map_of_mem ht) hno

theorem settles_settling {n : FullNode} {c : NodeCmd} (hfit : n.cs.fits = true)
    (happart : apart n = true) (hc : ∀ b w, c = .block b w → sampleOffer.Delivers b w)
    (h : settling n c = true) :
    Settles .test (sampleOffer.Around .test) testConfig sampleOffer n c := by
  cases c with
  | accept tx =>
      refine ⟨⟨trivial, fun x hx => ?_⟩, fun b w hb => by cases hb⟩
      cases hx
      intro y hy
      rcases hy.cases_head with rfl | ⟨z, ⟨hne, -⟩, -⟩
      · exact ⟨fits_of hfit, recording_sample _ _⟩
      · exact absurd rfl hne
  | block b w =>
      obtain ⟨hfit', hsome⟩ := Bool.and_eq_true_iff.mp h
      obtain ⟨s', hs'⟩ := Option.isSome_iff_exists.mp hsome
      refine ⟨⟨hc b w rfl, fun x hx => ?_⟩, fun _ _ _ => keepsPending_apart happart⟩
      cases hx
      rw [receiveBlock_quick]
      exact smooth_sample (smooth_settle (fits_of hfit') hs')
  | header hd => cases h
  | snapshot x => cases h
  | flush => cases h
  | restart => cases h

theorem reached_settleAll {cmds : List NodeCmd} {n n' : FullNode}
    (hc : ∀ b w, .block b w ∈ cmds → sampleOffer.Delivers b w)
    (hn : Reached testConfig (Settles .test (sampleOffer.Around .test) testConfig sampleOffer) n)
    (h : settleAll cmds n = some n') :
    Reached testConfig (Settles .test (sampleOffer.Around .test) testConfig sampleOffer) n' := by
  induction cmds generalizing n with
  | nil =>
      cases h
      exact hn
  | cons c rest ih =>
      rw [settleAll] at h
      split at h
      · next hcheck =>
          simp only [Bool.and_eq_true] at hcheck
          obtain ⟨⟨hfit, happart⟩, hsettling⟩ := hcheck
          have hok := settles_settling hfit happart
            (fun b w hb => hc b w (hb ▸ List.mem_cons_self)) hsettling
          cases hrun : n.run testConfig c with
          | error e =>
              rw [← run_quick, hrun] at h
              cases h
          | ok n₁ =>
              rw [← run_quick, hrun] at h
              exact ih (fun b w hb => hc b w (List.mem_cons_of_mem c hb)) (.run hn hok hrun) h
      · cases h

theorem smooth_test {s : Chainstate} (h : loadReady testConfig {} 0 = .ok s) :
    Smooth testConfig anyStep (.choose s.tip activateGuard, s) := by
  have hboot : ((quickLoad testConfig {} 0).toOption.any fun s =>
      s.fits && (settle testConfig 4 (.choose s.tip activateGuard) s).isSome) = true := by
    decide +kernel
  rw [← loadReady_quick, h] at hboot
  obtain ⟨hfit, hsome⟩ := Bool.and_eq_true_iff.mp hboot
  obtain ⟨s', hs'⟩ := Option.isSome_iff_exists.mp hsome
  exact smooth_settle (fits_of hfit) hs'

/-- The payment is pending, and the branch has been tried and found invalid. -/
def triedInVain (n : FullNode) : Bool :=
  n.cs.tip == (sampleLine 13).header.hash && n.mp.order.length == 1 &&
    (n.cs.entry (sampleBranch 1).header.hash).failed

/-- The node after all of them. -/
def vainNode : { r : Option FullNode //
    r = (start testConfig {} 0).toOption.bind (settleAll vainCommands) ∧
      r.any triedInVain = true } :=
  ⟨(quickStart testConfig).toOption.bind (settleAll vainCommands), by rw [start_quick], by
    decide +kernel⟩

/-- With a payment pending the branch is tried in vain and the line goes on. -/
theorem mempool_sound_vain : ∃ n,
    Reached testConfig (Settles .test (sampleOffer.Around .test) testConfig sampleOffer) n ∧
    n.cs.tip = (sampleLine 13).header.hash ∧ n.mp.order.length = 1 ∧
    (n.cs.entry (sampleBranch 1).header.hash).failed = true ∧ n.mp.Sound testConfig n.cs := by
  obtain ⟨r, hr, hrun⟩ := vainNode
  obtain ⟨n, hn, hvain⟩ := (Option.any_eq_true _ _).mp hrun
  rw [hr] at hn
  cases h₀ : start testConfig {} 0 with
  | error e =>
      rw [h₀] at hn
      cases hn
  | ok n₀ =>
      rw [h₀] at hn
      simp only [triedInVain, Bool.and_eq_true, beq_iff_eq] at hvain
      have hcmds : ∀ b w, .block b w ∈ vainCommands → sampleOffer.Delivers b w := by
        intro b w hb
        rw [vainCommands, List.mem_append, List.mem_append] at hb
        rcases hb with (hb | hb) | hb
        · obtain ⟨x, hx, he⟩ := List.mem_map.mp hb
          cases he
          exact List.mem_of_mem_take hx
        · cases List.mem_singleton.mp hb
        · obtain ⟨x, hx, he⟩ := List.mem_map.mp hb
          cases he
          rcases List.mem_append.mp hx with hx | hx
          · exact List.mem_of_mem_drop hx
          · exact List.mem_of_mem_drop (List.mem_of_mem_take hx)
      have hreached := reached_settleAll hcmds (.start h₀) hn
      refine ⟨n, hreached, hvain.1.1, hvain.1.2, hvain.2, ?_⟩
      exact mempool_sound sources_sample rfl (fun _ h => h)
        (fun s hs => smooth_sample (smooth_test hs)) hreached

/-! ## A payment that is confirmed and comes back -/

/-- Twelve blocks and a pending payment; then a branch whose first block confirms
the payment, whose second pays its miner too much, and whose third makes it the
heaviest. -/
def returnScript : List (FullNode → NodeCmd) :=
  List.replicate 12 (extendTip []) ++
    [fun _ => .accept samplePayment,
      extendSide 10 0 (sampleCoinbase 11) [samplePayment],
      extendSide 10 1 { lockHeight := 12, outs := [⟨90000000000, qntAsset, 5⟩] } [],
      extendSide 10 2 (sampleCoinbase 13) []]

/-- The list has lost the payment and the view still spends for it. -/
def stale (n : FullNode) : Bool :=
  n.mp.order.isEmpty && n.mp.view.spends ⟨(sampleCoinbase 1).txid, 0⟩

/-- The node the script makes, gone stale. -/
def returned : { r : Except String FullNode //
    r = runFresh testConfig returnScript ∧ r.toOption.any stale = true } :=
  ⟨quickFresh testConfig returnScript, (runFresh_quick _ _).symm, by decide +kernel⟩

/-- The call that tries the branch returns to the tip it came from. -/
theorem mempool_goes_stale :
    ¬ ∀ n, Reached testConfig (fun _ _ => True) n → n.mp.Sound testConfig n.cs := by
  intro hall
  obtain ⟨r, hr, hrun⟩ := returned
  rw [hr] at hrun
  cases hr : runFresh testConfig returnScript with
  | error e =>
      rw [hr] at hrun
      cases hrun
  | ok n =>
      rw [hr] at hrun
      obtain ⟨ho, hs⟩ := Bool.and_eq_true_iff.mp hrun
      have hv := (hall n (reached_runFresh hr)).view
      rw [Mempool.Viewed, List.isEmpty_iff.mp ho, replay, Option.some_inj] at hv
      have hview : (n.mp.viewOn n.cs).spends ⟨(sampleCoinbase 1).txid, 0⟩ = true := hs
      rw [← hv] at hview
      cases hview

end QuantCore.FullNode
