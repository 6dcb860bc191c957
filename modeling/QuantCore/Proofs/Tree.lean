import QuantCore.Chain.Accept
import QuantCore.Lib.Forest

/-!
# The block tree

Flags and data positions of a block come and go; its place in the tree is fixed
when its header is indexed. `Node` is that fixed part, and `Nodes.Wf` says that
the indexed blocks form one tree below genesis, with heights, child lists and
skip pointers that agree with the parent pointers. The active chain is a path of
it from genesis.

From this the walks of the source are what they are meant to be: `ancestor`
ends at the ancestor of the wanted height, whether it jumps over skip pointers
or reads the active chain, the fork point is the last common block, and the path
from a fork to a block leads from child to child.
-/

namespace QuantCore

open Forest

/-- The part of a `BlockIndex` that never changes, but for new children. -/
structure Node where
  hash : Hash256
  header : BlockHeader
  height : Nat
  chainwork : U256
  prev : Option Hash256
  skip : Option Hash256
  seq : Nat
  children : List Hash256

def BlockIndex.node (b : BlockIndex) : Node :=
  ⟨b.hash, b.header, b.height, b.chainwork, b.prev, b.skip, b.seq, b.children⟩

abbrev Nodes := Hash256 → Option Node

namespace Nodes

def parent (t : Nodes) (h : Hash256) : Option Hash256 := (t h).bind Node.prev

def height (t : Nodes) (h : Hash256) : Nat := ((t h).map Node.height).getD 0

theorem height_eq {t : Nodes} {h : Hash256} {n : Node} (hn : t h = some n) :
    t.height h = n.height := by
  rw [height, hn]
  rfl

theorem parent_eq {t : Nodes} {h : Hash256} {n : Node} (hn : t h = some n) :
    t.parent h = n.prev := by
  rw [parent, hn]
  rfl

theorem isSome_of_parent {t : Nodes} {h p : Hash256} (hp : t.parent h = some p) :
    ∃ n, t h = some n ∧ n.prev = some p :=
  Option.bind_eq_some_iff.mp hp

variable [Crypto]

/-- One tree below the genesis `g`, indexed by header hash. -/
structure Wf (g : Hash256) (t : Nodes) (nextSeq : Nat) : Prop where
  hash : ∀ h n, t h = some n → n.hash = h ∧ n.header.hash = h
  genesis : ∃ n, t g = some n ∧ n.prev = none
  root : ∀ h n, t h = some n → n.prev = none → h = g ∧ n.height = 0
  parent : ∀ h n p, t h = some n → n.prev = some p →
    n.header.prev = p ∧ ∃ q, t p = some q ∧ n.height = q.height + 1 ∧ h ∈ q.children
  children : ∀ p q c, t p = some q → c ∈ q.children → ∃ n, t c = some n ∧ n.prev = some p
  nodup : ∀ p q, t p = some q → q.children.Nodup
  skip : ∀ h n k, t h = some n → n.skip = some k →
    up t.parent (n.height - Chainstate.skipHeight n.height) h = some k
  seqLt : ∀ h n, t h = some n → n.seq < nextSeq
  seqInj : ∀ h n h' n', t h = some n → t h' = some n' → n.seq = n'.seq → h = h'

variable {g : Hash256} {t : Nodes} {nextSeq : Nat}

theorem Wf.ranked (hw : t.Wf g nextSeq) : Ranked t.parent t.height := by
  intro a p hp
  obtain ⟨n, hn, hnp⟩ := isSome_of_parent hp
  obtain ⟨-, q, hq, hh, -⟩ := hw.parent a n p hn hnp
  rw [height_eq hn, height_eq hq, hh]

theorem Wf.height_genesis (hw : t.Wf g nextSeq) : t.height g = 0 := by
  obtain ⟨n, hn, hp⟩ := hw.genesis
  rw [height_eq hn, (hw.root g n hn hp).2]

theorem Wf.isSome_up (hw : t.Wf g nextSeq) {n : Nat} {h a : Hash256} (hh : (t h).isSome)
    (ha : up t.parent n h = some a) : (t a).isSome := by
  induction n generalizing h with
  | zero =>
      cases ha
      exact hh
  | succ n ih =>
      rw [up] at ha
      cases hp : t.parent h with
      | none =>
          rw [hp] at ha
          cases ha
      | some p =>
          rw [hp] at ha
          obtain ⟨m, hm, hmp⟩ := isSome_of_parent hp
          obtain ⟨-, q, hq, -⟩ := hw.parent h m p hm hmp
          exact ih (by rw [hq]; rfl) ha

/-- Every block has an ancestor at every height below its own. -/
theorem Wf.exists_up (hw : t.Wf g nextSeq) {h : Hash256} {n : Node} (hn : t h = some n)
    {k : Nat} (hk : k ≤ n.height) : ∃ a, up t.parent k h = some a := by
  induction k generalizing h n with
  | zero => exact ⟨h, rfl⟩
  | succ k ih =>
      cases hp : n.prev with
      | none =>
          have := (hw.root h n hn hp).2
          omega
      | some p =>
          obtain ⟨-, q, hq, hh, -⟩ := hw.parent h n p hn hp
          obtain ⟨a, ha⟩ := ih hq (by omega)
          refine ⟨a, ?_⟩
          rw [up, parent_eq hn, hp]
          exact ha

theorem Wf.eq_genesis (hw : t.Wf g nextSeq) {h : Hash256} (hh : (t h).isSome)
    (h0 : t.height h = 0) : h = g := by
  obtain ⟨n, hn⟩ := Option.isSome_iff_exists.mp hh
  cases hp : n.prev with
  | none => exact (hw.root h n hn hp).1
  | some p =>
      obtain ⟨-, q, hq, hht, -⟩ := hw.parent h n p hn hp
      rw [height_eq hn] at h0
      omega

end Nodes

/-! ## The active chain -/

/-- A path of the tree from genesis. -/
structure ChainWf (g : Hash256) (t : Nodes) (chain : List Hash256) : Prop where
  path : Path t.parent chain
  head : chain.head? = some g

namespace Chainstate

def node (s : Chainstate) (h : Hash256) : Option Node := (s.lookup h).map BlockIndex.node

theorem entry_height (s : Chainstate) (h : Hash256) :
    (s.entry h).height = Nodes.height s.node h := by
  rw [entry, Nodes.height, node, lookup]
  cases s.index.lookup h <;> rfl

theorem entry_prev (s : Chainstate) (h : Hash256) :
    (s.entry h).prev = Nodes.parent s.node h := by
  rw [entry, Nodes.parent, node, lookup]
  cases s.index.lookup h <;> rfl

theorem entry_skip (s : Chainstate) (h : Hash256) :
    (s.entry h).skip = (s.node h).bind Node.skip := by
  rw [entry, node, lookup]
  cases s.index.lookup h <;> rfl

theorem entry_node {s : Chainstate} {h : Hash256} {n : Node} (hn : s.node h = some n) :
    (s.entry h).node = n := by
  rw [entry]
  rw [node, lookup] at hn
  cases hl : s.index.lookup h with
  | none =>
      rw [hl] at hn
      cases hn
  | some b =>
      rw [hl] at hn
      cases hn
      rfl

theorem node_isSome {s : Chainstate} {h : Hash256} : (s.node h).isSome ↔ h ∈ s.index := by
  rw [node, Option.isSome_map, lookup, AList.lookup_isSome]

/-! ## Heights of the skip list -/

theorem invertLowestOne_le (n : Nat) : invertLowestOne n ≤ n - 1 := Nat.and_le_right

theorem skipHeight_lt {h : Nat} (hpos : 0 < h) : skipHeight h < h := by
  have h1 := invertLowestOne_le h
  have h2 := invertLowestOne_le (h - 1)
  have h3 := invertLowestOne_le (invertLowestOne (h - 1))
  rw [skipHeight]
  split
  · omega
  · split <;> omega

variable [Crypto] {s : Chainstate} {g : Hash256}

/-- The loop of `ancestor` goes to the ancestor of the wanted height. -/
theorem walkDown_eq (hw : Nodes.Wf g s.node s.nextSeq) {height : Nat} {k : Nat}
    {walk : Hash256} {hgt : Nat} {n : Node} (hn : s.node walk = some n)
    (hh : n.height = hgt) (hk : hgt ≤ k) (hle : height ≤ hgt) :
    s.walkDown height k walk hgt = up (Nodes.parent s.node) (hgt - height) walk := by
  induction k generalizing walk hgt n with
  | zero =>
      have h0 : hgt - height = 0 := by omega
      rw [walkDown, h0, up]
  | succ k ih =>
      rw [walkDown]
      split
      · next hd =>
          have h0 : hgt - height = 0 := by omega
          rw [h0, up]
      · next hgt' =>
          have hprev : s.walkDown height k ((s.entry walk).prev.getD 0) (hgt - 1) =
                up (Nodes.parent s.node) (hgt - height) walk ∧
              (s.entry walk).prev.isSome := by
            rw [entry_prev, Nodes.parent_eq hn]
            cases hp : n.prev with
            | none =>
                have := (hw.root walk n hn hp).2
                omega
            | some p =>
                obtain ⟨-, q, hq, hqh, -⟩ := hw.parent walk n p hn hp
                refine ⟨?_, rfl⟩
                rw [Option.getD_some, ih hq (by omega) (by omega) (by omega)]
                have hs : hgt - height = hgt - 1 - height + 1 := by omega
                rw [hs, up, Nodes.parent_eq hn, hp]
                rfl
          obtain ⟨hprev, hsome⟩ := hprev
          obtain ⟨p, hp⟩ := Option.isSome_iff_exists.mp hsome
          rw [hp, Option.getD_some] at hprev
          rw [hp]
          simp only []
          cases hsk : (s.entry walk).skip with
          | none => exact hprev
          | some sk =>
              simp only []
              split
              · next hcond =>
                  rw [entry_skip, hn, Option.bind_some] at hsk
                  have hup := hw.skip walk n sk hn hsk
                  rw [hh] at hup
                  have hlt : skipHeight hgt < hgt := skipHeight_lt (by omega)
                  have hge : height ≤ skipHeight hgt := by
                    rcases hcond with h | ⟨h, -⟩ <;> omega
                  obtain ⟨m, hm⟩ := Option.isSome_iff_exists.mp
                    (hw.isSome_up (by rw [hn]; rfl) hup)
                  have hr := hw.ranked.rank_up hup
                  rw [Nodes.height_eq hn, Nodes.height_eq hm] at hr
                  rw [ih hm (by omega) (by omega) hge, up_sub hup (by omega)]
                  congr 1
                  omega
              · exact hprev

/-! ## Walks along the active chain -/

omit [Crypto] in
theorem chain_eq_snoc (hc : ChainWf g s.node s.chain) :
    s.chain = s.chain.dropLast ++ [s.tip] := by
  have hne : s.chain ≠ [] := by
    intro h
    have := hc.head
    rw [h] at this
    cases this
  rw [tip, List.getLastD_eq_getLast?, List.getLast?_eq_getLast_of_ne_nil hne,
    Option.getD_some, List.dropLast_append_getLast hne]

omit [Crypto] in
theorem tip_mem (hc : ChainWf g s.node s.chain) : s.tip ∈ s.chain := by
  rw [chain_eq_snoc hc]
  exact List.mem_append_right _ (List.mem_singleton.mpr rfl)

theorem chain_isSome (hw : Nodes.Wf g s.node s.nextSeq) (hc : ChainWf g s.node s.chain)
    {h : Hash256} (hh : h ∈ s.chain) : (s.node h).isSome := by
  obtain ⟨i, hi⟩ := List.getElem?_of_mem hh
  cases i with
  | zero =>
      rw [← List.head?_eq_getElem?, hc.head] at hi
      cases hi
      obtain ⟨n, hn, -⟩ := hw.genesis
      rw [hn]
      rfl
  | succ i =>
      obtain ⟨hlt, hget⟩ := List.getElem?_eq_some_iff.mp hi
      have hp := List.isChain_iff_getElem.mp hc.path i hlt
      rw [hget] at hp
      obtain ⟨n, hn, -⟩ := Nodes.isSome_of_parent hp
      rw [hn]
      rfl

theorem height_getElem (hw : Nodes.Wf g s.node s.nextSeq) (hc : ChainWf g s.node s.chain)
    {i : Nat} {h : Hash256} (hi : s.chain[i]? = some h) : Nodes.height s.node h = i :=
  hc.path.rank_getElem hw.ranked hc.head hw.height_genesis hi

theorem inActiveChain_iff (hw : Nodes.Wf g s.node s.nextSeq)
    (hc : ChainWf g s.node s.chain) {h : Hash256} :
    s.inActiveChain h = true ↔ h ∈ s.chain := by
  rw [inActiveChain, atHeight, beq_iff_eq, entry_height]
  constructor
  · exact List.mem_of_getElem?
  · intro hh
    obtain ⟨i, hi⟩ := List.getElem?_of_mem hh
    rw [height_getElem hw hc hi]
    exact hi

theorem height_tip (hw : Nodes.Wf g s.node s.nextSeq) (hc : ChainWf g s.node s.chain) :
    Nodes.height s.node s.tip = s.chain.length - 1 := by
  apply height_getElem hw hc
  rw [← List.getLast?_eq_getElem?, chain_eq_snoc hc, List.getLast?_concat]

theorem mem_chain_iff (hw : Nodes.Wf g s.node s.nextSeq) (hc : ChainWf g s.node s.chain)
    {h : Hash256} : h ∈ s.chain ↔ Above (Nodes.parent s.node) h s.tip := by
  have hpath := hc.path
  rw [chain_eq_snoc hc] at hpath
  constructor
  · intro hh
    rw [chain_eq_snoc hc] at hh
    exact hpath.above_of_mem hh
  · rintro ⟨n, hn⟩
    have hr := hw.ranked.rank_up hn
    rw [height_tip hw hc] at hr
    have hlen : s.chain.dropLast.length = s.chain.length - 1 := List.length_dropLast
    have hup := hpath.up_getLast (i := s.chain.dropLast.length - n) (by omega)
    rw [← chain_eq_snoc hc] at hup
    have hsub : s.chain.dropLast.length - (s.chain.dropLast.length - n) = n := by omega
    rw [hsub, hn] at hup
    exact List.mem_of_getElem? hup.symm

theorem ancestor_eq (hw : Nodes.Wf g s.node s.nextSeq) (hc : ChainWf g s.node s.chain)
    {h : Hash256} {n : Node} (hn : s.node h = some n) {k : Nat} (hk : k ≤ n.height) :
    s.ancestor h k = up (Nodes.parent s.node) (n.height - k) h := by
  have hh : (s.entry h).height = n.height := by rw [entry_height, Nodes.height_eq hn]
  rw [ancestor, hh, if_neg (by omega)]
  split
  · next hact =>
      rw [inActiveChain_iff hw hc] at hact
      obtain ⟨i, hi⟩ := List.getElem?_of_mem hact
      have hih := height_getElem hw hc hi
      rw [Nodes.height_eq hn] at hih
      -- both are steps up from the tip
      have hpath := hc.path
      rw [chain_eq_snoc hc] at hpath
      have hlt := (List.getElem?_eq_some_iff.mp hi).1
      have hlen : s.chain.dropLast.length = s.chain.length - 1 := List.length_dropLast
      have hupi := hpath.up_getLast (i := i) (by omega)
      have hupk := hpath.up_getLast (i := k) (by omega)
      rw [← chain_eq_snoc hc] at hupi hupk
      rw [hi] at hupi
      rw [atHeight, ← hupk, up_sub hupi (by omega)]
      congr 1
      omega
  · exact walkDown_eq hw hn rfl (Nat.le_refl _) hk

/-- `ancestor` at any height a block has an ancestor at. -/
theorem ancestor_spec (hw : Nodes.Wf g s.node s.nextSeq) (hc : ChainWf g s.node s.chain)
    {h : Hash256} (hh : (s.node h).isSome) {k : Nat} (hk : k ≤ Nodes.height s.node h) :
    ∃ a, s.ancestor h k = some a ∧ Above (Nodes.parent s.node) a h ∧
      Nodes.height s.node a = k ∧ (s.node a).isSome := by
  obtain ⟨n, hn⟩ := Option.isSome_iff_exists.mp hh
  rw [Nodes.height_eq hn] at hk
  obtain ⟨a, ha⟩ := hw.exists_up hn (Nat.sub_le n.height k)
  refine ⟨a, (ancestor_eq hw hc hn hk).trans ha, ⟨_, ha⟩, ?_, hw.isSome_up hh ha⟩
  have hr := hw.ranked.rank_up ha
  rw [Nodes.height_eq hn] at hr
  omega

theorem toActive_spec (hw : Nodes.Wf g s.node s.nextSeq) (hc : ChainWf g s.node s.chain)
    {k : Nat} {a : Hash256} (ha : (s.node a).isSome) (hk : Nodes.height s.node a ≤ k) :
    ∃ f, s.toActive k (some a) = some f ∧ f ∈ s.chain ∧
      Above (Nodes.parent s.node) f a ∧
      ∀ x ∈ s.chain, Above (Nodes.parent s.node) x a →
        Nodes.height s.node x ≤ Nodes.height s.node f := by
  have hhere : ∀ {a : Hash256}, a ∈ s.chain → ∀ x ∈ s.chain,
      Above (Nodes.parent s.node) x a → Nodes.height s.node x ≤ Nodes.height s.node a := by
    rintro a - x - ⟨m, hm⟩
    have := hw.ranked.rank_up hm
    omega
  have hgen : g ∈ s.chain := List.mem_of_head? hc.head
  induction k generalizing a with
  | zero =>
      have hag := hw.eq_genesis ha (by omega)
      subst hag
      refine ⟨a, ?_, hgen, .refl a, hhere hgen⟩
      rw [toActive, if_pos ((inActiveChain_iff hw hc).mpr hgen)]
  | succ k ih =>
      rw [toActive]
      split
      · next hact =>
          rw [inActiveChain_iff hw hc] at hact
          exact ⟨a, rfl, hact, .refl a, hhere hact⟩
      · next hact =>
          rw [inActiveChain_iff hw hc] at hact
          obtain ⟨n, hn⟩ := Option.isSome_iff_exists.mp ha
          have hne : a ≠ g := fun he => hact (he ▸ hgen)
          rw [entry_prev, Nodes.parent_eq hn]
          cases hp : n.prev with
          | none => exact absurd (hw.root a n hn hp).1 hne
          | some p =>
              obtain ⟨-, q, hq, hqh, -⟩ := hw.parent a n p hn hp
              rw [Nodes.height_eq hn] at hk
              obtain ⟨f, hf, hfc, hfa, hmax⟩ := ih (a := p) (by rw [hq]; rfl)
                (by rw [Nodes.height_eq hq]; omega)
              have hpa : Nodes.parent s.node a = some p := by rw [Nodes.parent_eq hn, hp]
              refine ⟨f, hf, hfc, hfa.trans (above_parent hpa), fun x hx hxa => ?_⟩
              obtain ⟨m, hm⟩ := hxa
              cases m with
              | zero =>
                  cases hm
                  exact absurd hx hact
              | succ m =>
                  rw [up, hpa, Option.bind_some] at hm
                  exact hmax x hx ⟨m, hm⟩

/-- The fork point is the last block of the active chain on a branch. -/
theorem forkPoint_spec (hw : Nodes.Wf g s.node s.nextSeq) (hc : ChainWf g s.node s.chain)
    {b : Hash256} (hb : (s.node b).isSome) :
    ∃ f, s.forkPoint b = some f ∧ f ∈ s.chain ∧ Above (Nodes.parent s.node) f b ∧
      ∀ x ∈ s.chain, Above (Nodes.parent s.node) x b →
        Nodes.height s.node x ≤ Nodes.height s.node f := by
  rw [forkPoint]
  simp only [entry_height]
  obtain ⟨a, ha, hab, hah, has⟩ := ancestor_spec hw hc hb
    (k := min (Nodes.height s.node b) (Nodes.height s.node s.tip)) (Nat.min_le_left _ _)
  rw [ha]
  obtain ⟨f, hf, hfc, hfa, hmax⟩ := toActive_spec hw hc
    (k := Nodes.height s.node b) has (by omega)
  refine ⟨f, hf, hfc, hfa.trans hab, fun x hx hxb => hmax x hx ?_⟩
  refine hw.ranked.above_of_above hxb hab ?_
  rw [hah]
  obtain ⟨m, hm⟩ := hxb
  obtain ⟨k, hk⟩ := (mem_chain_iff hw hc).mp hx
  have h1 := hw.ranked.rank_up hm
  have h2 := hw.ranked.rank_up hk
  omega

/-- The path from a fork to a block, child by child. -/
theorem pathFrom_spec (hw : Nodes.Wf g s.node s.nextSeq) {fork : Hash256} {n k : Nat}
    {w : Hash256} {a : List Hash256} (hup : up (Nodes.parent s.node) n w = some fork)
    (hk : n < k) :
    ∃ p, s.pathFrom fork k w a = p ++ a ∧ p.length = n ∧
      Path (Nodes.parent s.node) (fork :: p) ∧ (fork :: p).getLast? = some w := by
  induction n generalizing k w a with
  | zero =>
      cases hup
      obtain ⟨k, rfl⟩ : ∃ j, k = j + 1 := ⟨k - 1, by omega⟩
      refine ⟨[], ?_, rfl, path_singleton _, rfl⟩
      rw [pathFrom, if_pos rfl, List.nil_append]
  | succ n ih =>
      obtain ⟨k, rfl⟩ : ∃ j, k = j + 1 := ⟨k - 1, by omega⟩
      have hne : w ≠ fork := by
        intro he
        have := hw.ranked.rank_up hup
        rw [he] at this
        omega
      rw [up] at hup
      cases hp : Nodes.parent s.node w with
      | none =>
          rw [hp] at hup
          cases hup
      | some p =>
          rw [hp, Option.bind_some] at hup
          obtain ⟨l, hl, hlen, hpath, hlast⟩ := ih (a := w :: a) hup (Nat.lt_of_succ_lt_succ hk)
          refine ⟨l ++ [w], ?_, by rw [List.length_append, hlen]; rfl, ?_, ?_⟩
          · rw [pathFrom, if_neg hne, entry_prev, hp, List.append_assoc]
            exact hl
          · rw [← List.cons_append]
            refine List.isChain_append.mpr ⟨hpath, List.IsChain.singleton w, ?_⟩
            intro x hx y hy
            rw [hlast] at hx
            cases hx
            cases hy
            exact hp
          · rw [← List.cons_append, List.getLast?_concat]

/-- The chain that ends in a block. -/
theorem chainTo_spec (hw : Nodes.Wf g s.node s.nextSeq) {k : Nat} {h : Hash256} {n : Node}
    {a : List Hash256} (hn : s.node h = some n) (hk : n.height ≤ k) :
    ∃ p, s.chainTo k h a = p ++ a ∧ Path (Nodes.parent s.node) p ∧
      p.head? = some g ∧ p.getLast? = some h := by
  have hroot : ∀ {h : Hash256} {n : Node}, s.node h = some n → n.prev = none → h = g :=
    fun hn hp => (hw.root _ _ hn hp).1
  induction k generalizing h n a with
  | zero =>
      have hg := hw.eq_genesis (by rw [hn]; rfl) (by rw [Nodes.height_eq hn]; omega)
      exact ⟨[h], rfl, path_singleton h, by rw [hg]; rfl, rfl⟩
  | succ k ih =>
      rw [chainTo, entry_prev, Nodes.parent_eq hn]
      cases hp : n.prev with
      | none => exact ⟨[h], rfl, path_singleton h, by rw [hroot hn hp]; rfl, rfl⟩
      | some p =>
          obtain ⟨-, q, hq, hqh, -⟩ := hw.parent h n p hn hp
          obtain ⟨l, hl, hpath, hhead, hlast⟩ := ih (a := h :: a) hq (by omega)
          refine ⟨l ++ [h], ?_, ?_, ?_, List.getLast?_concat ..⟩
          · rw [List.append_assoc]
            exact hl
          · refine List.isChain_append.mpr ⟨hpath, List.IsChain.singleton h, ?_⟩
            intro x hx y hy
            rw [hlast] at hx
            cases hx
            cases hy
            rw [Nodes.parent_eq hn, hp]
          · cases l with
            | nil => cases hhead
            | cons x l => exact hhead

end Chainstate

end QuantCore
