import QuantCore.Proofs.Frame

/-!
# A header joins the tree

`add_index` hangs a new leaf under a known block. The blocks that were there
keep their place, so every path of the old tree is a path of the new one, and
the new tree is well formed if the old one was. The first header of all becomes
the root.
-/

namespace QuantCore

open Maps Forest

namespace Nodes

/-- A new leaf `nb` under `p`. -/
def grow (t : Nodes) (p : Hash256) (nb : Node) : Nodes := fun x =>
  if x = nb.hash then some nb
  else if x = p then (t p).map fun q => { q with children := q.children ++ [nb.hash] }
  else t x

/-- `t'` has the blocks of `t` where they were, with more children perhaps. -/
def Extends (t t' : Nodes) : Prop :=
  ∀ x n, t x = some n → ∃ l, t' x = some { n with children := l }

theorem Extends.refl (t : Nodes) : Extends t t := fun _ n hn => ⟨n.children, hn⟩

theorem Extends.trans {t₁ t₂ t₃ : Nodes} (h₁ : Extends t₁ t₂) (h₂ : Extends t₂ t₃) :
    Extends t₁ t₃ := by
  intro x n hn
  obtain ⟨l, hl⟩ := h₁ x n hn
  obtain ⟨l', hl'⟩ := h₂ x _ hl
  exact ⟨l', hl'⟩

theorem Extends.parent {t t' : Nodes} (h : Extends t t') {x : Hash256}
    (hx : (t x).isSome) : t'.parent x = t.parent x := by
  obtain ⟨n, hn⟩ := Option.isSome_iff_exists.mp hx
  obtain ⟨l, hl⟩ := h x n hn
  rw [parent_eq hn, parent_eq hl]

theorem Extends.height {t t' : Nodes} (h : Extends t t') {x : Hash256}
    (hx : (t x).isSome) : t'.height x = t.height x := by
  obtain ⟨n, hn⟩ := Option.isSome_iff_exists.mp hx
  obtain ⟨l, hl⟩ := h x n hn
  rw [height_eq hn, height_eq hl]

theorem Extends.isSome {t t' : Nodes} (h : Extends t t') {x : Hash256}
    (hx : (t x).isSome) : (t' x).isSome := by
  obtain ⟨n, hn⟩ := Option.isSome_iff_exists.mp hx
  obtain ⟨l, hl⟩ := h x n hn
  rw [hl]
  rfl

theorem Extends.path {t t' : Nodes} (h : Extends t t') {l : List Hash256}
    (hl : Path t.parent l) : Path t'.parent l := by
  refine List.IsChain.imp ?_ hl
  intro a b hab
  obtain ⟨n, hn, hnp⟩ := isSome_of_parent hab
  rw [h.parent (by rw [hn]; rfl)]
  exact hab

variable [Crypto] {g : Hash256} {t : Nodes} {k : Nat}

theorem Extends.up {t' : Nodes} (h : Extends t t') (hw : t.Wf g k) {x : Hash256}
    (hx : (t x).isSome) (m : Nat) : Forest.up t'.parent m x = Forest.up t.parent m x := by
  induction m generalizing x with
  | zero => rfl
  | succ m ih =>
      rw [Forest.up, Forest.up, h.parent hx]
      cases hp : t.parent x with
      | none => rfl
      | some p =>
          exact ih (hw.isSome_up hx (n := 1) (by rw [Forest.up, hp]; rfl))

theorem Extends.above {t' : Nodes} (h : Extends t t') (hw : t.Wf g k) {a x : Hash256}
    (hx : (t x).isSome) : Above t'.parent a x ↔ Above t.parent a x := by
  constructor
  · rintro ⟨m, hm⟩
    exact ⟨m, by rwa [← h.up hw hx]⟩
  · rintro ⟨m, hm⟩
    exact ⟨m, by rwa [h.up hw hx]⟩

/-! ## A new leaf -/

omit [Crypto] in
theorem grow_self (t : Nodes) (p : Hash256) (nb : Node) : t.grow p nb nb.hash = some nb := by
  rw [grow, if_pos rfl]

omit [Crypto] in
theorem grow_parent {p : Hash256} {q : Node} {nb : Node} (hp : t p = some q)
    (hne : p ≠ nb.hash) :
    t.grow p nb p = some { q with children := q.children ++ [nb.hash] } := by
  rw [grow, if_neg hne, if_pos rfl, hp]
  rfl

omit [Crypto] in
theorem extends_grow {p : Hash256} {nb : Node} (hnew : t nb.hash = none) :
    Extends t (t.grow p nb) := by
  intro x n hn
  have hx : x ≠ nb.hash := by
    intro he
    rw [he, hnew] at hn
    cases hn
  rw [grow, if_neg hx]
  split
  · next hxp =>
      rw [← hxp, hn]
      exact ⟨_, rfl⟩
  · exact ⟨n.children, hn⟩

omit [Crypto] in
/-- The blocks of the grown tree, one by one. -/
theorem grow_cases {p : Hash256} {nb : Node} {x : Hash256} {n : Node}
    (h : t.grow p nb x = some n) :
    (x = nb.hash ∧ n = nb) ∨ ∃ m, t x = some m ∧
      n = { m with children := if x = p then m.children ++ [nb.hash] else m.children } := by
  rw [grow] at h
  split at h
  · next hx =>
      cases h
      exact .inl ⟨hx, rfl⟩
  · right
    split at h
    · next hx =>
        obtain ⟨m, hm, rfl⟩ := Option.map_eq_some_iff.mp h
        refine ⟨m, by rw [hx]; exact hm, ?_⟩
        rw [if_pos hx]
    · next hx =>
        refine ⟨n, h, ?_⟩
        rw [if_neg hx]

theorem Wf.grow (hw : t.Wf g k) {p : Hash256} {q nb : Node} (hp : t p = some q)
    (hnew : t nb.hash = none) (hhash : nb.header.hash = nb.hash)
    (hprev : nb.prev = some p) (hhp : nb.header.prev = p) (hheight : nb.height = q.height + 1)
    (hch : nb.children = []) (hseq : nb.seq = k)
    (hskip : ∀ a, nb.skip = some a →
      Forest.up t.parent (q.height - Chainstate.skipHeight nb.height) p = some a) :
    (t.grow p nb).Wf g (k + 1) := by
  have hext : Extends t (t.grow p nb) := extends_grow hnew
  have hpn : p ≠ nb.hash := by
    intro he
    rw [he, hnew] at hp
    cases hp
  refine ⟨?_, ?_, ?_, ?_, ?_, ?_, ?_, ?_, ?_⟩
  · intro h n hn
    rcases grow_cases hn with ⟨rfl, rfl⟩ | ⟨m, hm, rfl⟩
    · exact ⟨rfl, hhash⟩
    · exact hw.hash h m hm
  · obtain ⟨n, hn, hnp⟩ := hw.genesis
    obtain ⟨l, hl⟩ := hext g n hn
    exact ⟨_, hl, hnp⟩
  · intro h n hn hnp
    rcases grow_cases hn with ⟨rfl, rfl⟩ | ⟨m, hm, rfl⟩
    · rw [hprev] at hnp
      cases hnp
    · exact hw.root h m hm hnp
  · intro h n r hn hnp
    rcases grow_cases hn with ⟨rfl, rfl⟩ | ⟨m, hm, rfl⟩
    · rw [hprev] at hnp
      cases hnp
      refine ⟨hhp, _, grow_parent hp hpn, hheight, ?_⟩
      exact List.mem_append_right _ (List.mem_singleton.mpr rfl)
    · obtain ⟨hhr, q', hq', hh, hc⟩ := hw.parent h m r hm hnp
      refine ⟨hhr, ?_⟩
      by_cases hrp : r = p
      · rw [hrp] at hq' ⊢
        rw [hp] at hq'
        cases hq'
        exact ⟨_, grow_parent hp hpn, hh, List.mem_append_left _ hc⟩
      · refine ⟨q', ?_, hh, hc⟩
        have hrn : r ≠ nb.hash := by
          intro he
          rw [he, hnew] at hq'
          cases hq'
        rw [Nodes.grow, if_neg hrn, if_neg hrp]
        exact hq'
  · intro r q' c hq' hc
    rcases grow_cases hq' with ⟨rfl, rfl⟩ | ⟨m, hm, rfl⟩
    · rw [hch] at hc
      cases hc
    · simp only [] at hc
      split at hc
      · next hrp =>
          rcases List.mem_append.mp hc with hc | hc
          · obtain ⟨n, hn, hnp⟩ := hw.children r m c hm hc
            obtain ⟨l, hl⟩ := hext c n hn
            exact ⟨_, hl, hnp⟩
          · rw [List.mem_singleton.mp hc]
            exact ⟨nb, grow_self t p nb, by rw [hprev, hrp]⟩
      · obtain ⟨n, hn, hnp⟩ := hw.children r m c hm hc
        obtain ⟨l, hl⟩ := hext c n hn
        exact ⟨_, hl, hnp⟩
  · intro r q' hq'
    rcases grow_cases hq' with ⟨rfl, rfl⟩ | ⟨m, hm, rfl⟩
    · rw [hch]
      exact List.nodup_nil
    · have hnd := hw.nodup r m hm
      simp only []
      split
      · refine List.nodup_append'.mpr ⟨hnd, List.nodup_singleton _, ?_⟩
        intro x hx hx'
        rw [List.mem_singleton.mp hx'] at hx
        obtain ⟨n, hn, -⟩ := hw.children r m _ hm hx
        rw [hnew] at hn
        cases hn
      · exact hnd
  · intro h n a hn hna
    rcases grow_cases hn with ⟨rfl, rfl⟩ | ⟨m, hm, rfl⟩
    · have hlt : Chainstate.skipHeight n.height < n.height :=
        Chainstate.skipHeight_lt (by omega)
      have hsub : n.height - Chainstate.skipHeight n.height =
          (q.height - Chainstate.skipHeight n.height) + 1 := by omega
      have hpar : (t.grow p n).parent n.hash = some p := by
        rw [parent_eq (grow_self t p n), hprev]
      rw [hsub, Forest.up, hpar, Option.bind_some, hext.up hw (by rw [hp]; rfl)]
      exact hskip a hna
    · rw [hext.up hw (by rw [hm]; rfl)]
      exact hw.skip h m a hm hna
  · intro h n hn
    rcases grow_cases hn with ⟨rfl, rfl⟩ | ⟨m, hm, rfl⟩
    · rw [hseq]
      exact Nat.lt_succ_self k
    · exact Nat.lt_succ_of_lt (hw.seqLt h m hm)
  · intro h n h' n' hn hn' hs
    rcases grow_cases hn with ⟨rfl, rfl⟩ | ⟨m, hm, rfl⟩
    · rcases grow_cases hn' with ⟨rfl, rfl⟩ | ⟨m', hm', rfl⟩
      · rfl
      · have := hw.seqLt h' m' hm'
        simp only [] at hs
        omega
    · rcases grow_cases hn' with ⟨rfl, rfl⟩ | ⟨m', hm', rfl⟩
      · have := hw.seqLt h m hm
        simp only [] at hs
        omega
      · exact hw.seqInj h m h' m' hm hm' hs

/-- The first header of all. -/
theorem wf_single {nb : Node} (hhash : nb.header.hash = nb.hash) (hprev : nb.prev = none)
    (hheight : nb.height = 0) (hch : nb.children = []) (hskip : nb.skip = none) :
    Wf nb.hash (fun x => if x = nb.hash then some nb else none) (nb.seq + 1) := by
  have hone : ∀ {x : Hash256} {n : Node},
      (if x = nb.hash then some nb else none) = some n → x = nb.hash ∧ n = nb := by
    intro x n h
    split at h
    · next hx =>
        cases h
        exact ⟨hx, rfl⟩
    · cases h
  refine ⟨?_, ⟨nb, if_pos rfl, hprev⟩, ?_, ?_, ?_, ?_, ?_, ?_, ?_⟩
  · intro h n hn
    obtain ⟨rfl, rfl⟩ := hone hn
    exact ⟨rfl, hhash⟩
  · intro h n hn _
    obtain ⟨rfl, rfl⟩ := hone hn
    exact ⟨rfl, hheight⟩
  · intro h n p hn hp
    obtain ⟨rfl, rfl⟩ := hone hn
    rw [hprev] at hp
    cases hp
  · intro p q c hq hc
    obtain ⟨rfl, rfl⟩ := hone hq
    rw [hch] at hc
    cases hc
  · intro p q hq
    obtain ⟨rfl, rfl⟩ := hone hq
    rw [hch]
    exact List.nodup_nil
  · intro h n a hn ha
    obtain ⟨rfl, rfl⟩ := hone hn
    rw [hskip] at ha
    cases ha
  · intro h n hn
    obtain ⟨rfl, rfl⟩ := hone hn
    exact Nat.lt_succ_self _
  · intro h n h' n' hn hn' _
    rw [(hone hn).1, (hone hn').1]

end Nodes

/-! ## The operation -/

namespace Chainstate

variable [Crypto] {g : Hash256}

theorem newEntry_hash (s : Chainstate) (h : BlockHeader) : (s.newEntry h).hash = h.hash := by
  rw [newEntry]
  split <;> rfl

omit [Crypto] in
theorem linkChild_eq (s : Chainstate) (p : Option Hash256) (c : Hash256) :
    s.linkChild p c = { s with index := (s.linkChild p c).index } := by
  cases p with
  | none => rfl
  | some p => exact modify_eq s p _

omit [Crypto] in
theorem raiseBestHeader_eq (s : Chainstate) (b : BlockIndex) :
    s.raiseBestHeader b = { s with bestHeader := (s.raiseBestHeader b).bestHeader } := by
  rw [raiseBestHeader]
  split
  · split <;> rfl
  · rfl

/-- All that `add_index` writes. -/
theorem addIndex_eq (s : Chainstate) (h : BlockHeader) : s.addIndex h = { s with
    nextSeq := s.nextSeq + 1, index := (s.addIndex h).index
    bestHeader := (s.addIndex h).bestHeader } := by
  rw [addIndex, raiseBestHeader_eq, linkChild_eq]

theorem addIndex_lookup (s : Chainstate) (h : BlockHeader) (x : Hash256) :
    (s.addIndex h).lookup x = if x = h.hash then some (s.newEntry h)
      else (s.linkChild (s.newEntry h).prev h.hash).lookup x := by
  have hlink : ∀ (p : Option Hash256) (c : Hash256),
      ({ s with nextSeq := s.nextSeq + 1 }.linkChild p c).index = (s.linkChild p c).index := by
    intro p c
    cases p with
    | none => rfl
    | some p =>
        rw [linkChild, linkChild, modify, modify]
        cases s.index.lookup p <;> rfl
  rw [addIndex, raiseBestHeader_eq, newEntry_hash]
  simp only [lookup]
  rw [lookup_insert_ite, hlink]

/-- A new header under a known block grows the tree by one leaf. -/
theorem addIndex_node {s : Chainstate} {h : BlockHeader} (hp : h.prev ∈ s.index) :
    (s.addIndex h).node = Nodes.grow s.node h.prev (s.newEntry h).node := by
  have hprev : (s.newEntry h).prev = some h.prev := by
    obtain ⟨p, hl⟩ := mem_iff_exists.mp hp
    rw [newEntry, lookup, hl]
  funext x
  rw [node, addIndex_lookup, Nodes.grow]
  have hh : (s.newEntry h).node.hash = h.hash := newEntry_hash s h
  rw [hh]
  split
  · rfl
  · rw [hprev, linkChild, lookup_modify]
    split
    · rw [node, Option.map_map, Option.map_map]
      rfl
    · rfl

/-- The chain that `ancestor` consults: an active one, or none yet. -/
def ChainReady (g : Hash256) (s : Chainstate) : Prop :=
  s.chain = [] ∨ ChainWf g s.node s.chain

theorem ancestor_up {s : Chainstate} (hw : Nodes.Wf g s.node s.nextSeq) (hc : s.ChainReady g) {h : Hash256}
    {n : Node} (hn : s.node h = some n) {k : Nat} (hk : k ≤ n.height) :
    s.ancestor h k = up (Nodes.parent s.node) (n.height - k) h := by
  rcases hc with hnil | hc
  · have hh : (s.entry h).height = n.height := by rw [entry_height, Nodes.height_eq hn]
    have hact : s.inActiveChain h = false := by
      rw [inActiveChain, atHeight, hnil]
      rfl
    rw [ancestor, hh, if_neg (by omega), hact]
    exact walkDown_eq hw hn rfl (Nat.le_refl _) hk
  · exact ancestor_eq hw hc hn hk

theorem addIndex_wf {s : Chainstate} (hw : Nodes.Wf g s.node s.nextSeq)
    (hc : s.ChainReady g) {h : BlockHeader} (hp : h.prev ∈ s.index)
    (hnew : h.hash ∉ s.index) :
    Nodes.Wf g (s.addIndex h).node (s.addIndex h).nextSeq ∧
      Nodes.Extends s.node (s.addIndex h).node := by
  obtain ⟨p, hl⟩ := mem_iff_exists.mp hp
  have hnone : s.node h.hash = none := by
    rw [node, lookup, AList.lookup_eq_none.mpr hnew]
    rfl
  have hpn : s.node h.prev = some p.node := by
    rw [node, lookup, hl]
    rfl
  have hb : s.newEntry h =
      { hash := h.hash, header := h, height := p.height + 1, prev := some h.prev
        seq := s.nextSeq
        chainwork := p.chainwork.add (U256.workFromTarget (U256.ofCompact h.bits))
        skip := s.ancestor h.prev (skipHeight (p.height + 1)) } := by
    rw [newEntry, lookup, hl]
  have hseq : (s.addIndex h).nextSeq = s.nextSeq + 1 := by
    rw [addIndex_eq]
  have hh : (s.newEntry h).node.hash = h.hash := newEntry_hash s h
  rw [addIndex_node hp, hseq]
  refine ⟨hw.grow hpn (by rw [hh]; exact hnone) ?_ ?_ ?_ ?_ ?_ ?_ ?_,
    Nodes.extends_grow (by rw [hh]; exact hnone)⟩
  · rw [hb]
    rfl
  · rw [hb]
    rfl
  · rw [hb]
    rfl
  · rw [hb]
    rfl
  · rw [hb]
    rfl
  · rw [hb]
    rfl
  · intro a ha
    rw [hb] at ha ⊢
    have hle : skipHeight (p.height + 1) ≤ p.height :=
      Nat.le_of_lt_succ (skipHeight_lt (Nat.succ_pos _))
    have hanc := ancestor_up hw hc hpn hle
    exact hanc.symm.trans ha

/-- In an empty tree the first header stands alone. -/
theorem addIndex_first_node {s : Chainstate} (hs : ∀ x, s.lookup x = none) (h : BlockHeader) :
    (s.addIndex h).node =
      fun x => if x = h.hash then some (s.newEntry h).node else none := by
  have hprev : (s.newEntry h).prev = none := by
    rw [newEntry, hs]
  funext x
  rw [node, addIndex_lookup, hprev]
  split
  · rfl
  · rw [linkChild, hs]
    rfl

/-- The first header of all is the root of its own tree. -/
theorem addIndex_first {s : Chainstate} (hs : ∀ x, s.lookup x = none) (h : BlockHeader) :
    Nodes.Wf h.hash (s.addIndex h).node (s.addIndex h).nextSeq := by
  have hb : s.newEntry h =
      { hash := h.hash, header := h, height := 0, prev := none, seq := s.nextSeq
        chainwork := U256.add {} (U256.workFromTarget (U256.ofCompact h.bits))
        skip := none } := by
    rw [newEntry, hs]
  have hseq : (s.addIndex h).nextSeq = (s.newEntry h).node.seq + 1 := by
    rw [addIndex_eq, hb]
    rfl
  have hh : h.hash = (s.newEntry h).node.hash := (newEntry_hash s h).symm
  rw [addIndex_first_node hs, hseq, hh]
  apply Nodes.wf_single
  · rw [hb]
    rfl
  · rw [hb]
    rfl
  · rw [hb]
    rfl
  · rw [hb]
    rfl
  · rw [hb]
    rfl

end Chainstate

end QuantCore
