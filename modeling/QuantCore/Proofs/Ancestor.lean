import QuantCore.Crypto.Instances
import QuantCore.Proofs.Grow

/-!
# The skip list against the parent pointers

A block tree grows by `add_index`, parents first, while the active chain is any
path from the root; a new node's skip pointer is itself looked up with
`ancestor`, through the nodes and the chain there are at that moment. Whatever
the order, the pointers agree with the parents, and `ancestor` finds the block
that walking `prev` finds.
-/

namespace QuantCore

open Forest

namespace Chainstate

/-- `ancestor` with the arguments of the source: a pointer that may be null and
a signed height. -/
def ancestorAt (s : Chainstate) (b : Option Hash256) (height : Int) : Option Hash256 :=
  match b with
  | none => none
  | some b =>
      if height > (s.entry b).height ∨ height < 0 then none else s.ancestor b height.toNat

/-- A list of blocks of the tree, the first one without a parent and each the
parent of the next. -/
structure RootPath (s : Chainstate) (chain : List Hash256) : Prop where
  path : Path (fun x => (s.entry x).prev) chain
  root : ∀ g, chain.head? = some g → g ∈ s.index ∧ (s.entry g).prev = none

variable [Crypto]

/-- The states `add_index` builds from nothing, with the active chain moving
freely between the calls. -/
inductive Built : Chainstate → Prop
  | first {s : Chainstate} (h : BlockHeader) (hempty : ∀ x, s.lookup x = none)
      (hchain : s.chain = []) : Built (s.addIndex h)
  | add {s : Chainstate} {h : BlockHeader} (hs : Built s) (hp : h.prev ∈ s.index)
      (hnew : h.hash ∉ s.index) : Built (s.addIndex h)
  | activate {s : Chainstate} {chain : List Hash256} (hs : Built s)
      (hc : s.RootPath chain) : Built { s with chain := chain }

variable {s : Chainstate} {g : Hash256}

theorem RootPath.ready (hw : Nodes.Wf g s.node s.nextSeq) {chain : List Hash256}
    (hc : s.RootPath chain) : chain = [] ∨ ChainWf g s.node chain := by
  have hparent : (fun x => (s.entry x).prev) = Nodes.parent s.node :=
    funext fun x => entry_prev s x
  cases chain with
  | nil => exact .inl rfl
  | cons r rest =>
      have hpath := hc.path
      rw [hparent] at hpath
      obtain ⟨hr, hprev⟩ := hc.root r rfl
      obtain ⟨n, hn⟩ := Option.isSome_iff_exists.mp (node_isSome.mpr hr)
      rw [entry_prev, Nodes.parent_eq hn] at hprev
      have hg := (hw.root r n hn hprev).1
      exact .inr ⟨hpath, by rw [List.head?_cons, hg]⟩

/-- One tree below one root, whose skip pointers are ancestors, and a chain that
is a path of it. -/
theorem Built.wf (hs : s.Built) :
    ∃ g, Nodes.Wf g s.node s.nextSeq ∧ s.ChainReady g := by
  induction hs with
  | @first s h hempty hchain =>
      refine ⟨h.hash, addIndex_first hempty h, .inl ?_⟩
      rw [addIndex_eq]
      exact hchain
  | @add s h _ hp hnew ih =>
      obtain ⟨g, hw, hc⟩ := ih
      obtain ⟨hw', hext⟩ := addIndex_wf hw hc hp hnew
      have hchain : (s.addIndex h).chain = s.chain := by rw [addIndex_eq]
      refine ⟨g, hw', ?_⟩
      rw [ChainReady, hchain]
      exact hc.imp id fun hc => ⟨hext.path hc.path, hc.head⟩
  | @activate s chain _ hc ih =>
      obtain ⟨g, hw, -⟩ := ih
      exact ⟨g, hw, hc.ready hw⟩

/-- In every tree built so, `ancestor` is the walk over `prev`: it finds the
block `b.height - height` steps up, in a loop that ends after at most `b.height`
rounds however many more it is allowed, and it finds nothing at any other
height. -/
theorem ancestor_walks (hs : s.Built) {b : Hash256} (hb : b ∈ s.index) (height : Int) :
    (0 ≤ height → height ≤ (s.entry b).height →
      ∃ a ∈ s.index, (s.entry a).height = height ∧
        up (fun x => (s.entry x).prev) ((s.entry b).height - height.toNat) b = some a ∧
        s.ancestorAt (some b) height = some a ∧
        ∀ rounds ≥ (s.entry b).height,
          s.walkDown height.toNat rounds b (s.entry b).height = some a) ∧
    (¬(0 ≤ height ∧ height ≤ (s.entry b).height) → s.ancestorAt (some b) height = none) := by
  obtain ⟨g, hw, hc⟩ := hs.wf
  obtain ⟨n, hn⟩ := Option.isSome_iff_exists.mp (node_isSome.mpr hb)
  have hparent : (fun x => (s.entry x).prev) = Nodes.parent s.node :=
    funext fun x => entry_prev s x
  have hheight : (s.entry b).height = n.height := by rw [entry_height, Nodes.height_eq hn]
  rw [hparent, hheight]
  refine ⟨fun h0 hle => ?_, fun hout => ?_⟩
  · obtain ⟨a, ha⟩ := hw.exists_up hn (Nat.sub_le n.height height.toNat)
    have hrank := hw.ranked.rank_up ha
    rw [Nodes.height_eq hn] at hrank
    refine ⟨a, node_isSome.mp (hw.isSome_up (node_isSome.mpr hb) ha), ?_, ha, ?_, ?_⟩
    · rw [entry_height]
      omega
    · rw [ancestorAt, hheight, if_neg (by omega), ancestor_up hw hc hn (by omega), ha]
    · intro rounds hrounds
      rw [walkDown_eq hw hn rfl hrounds (by omega), ha]
  · rw [ancestorAt, hheight, if_pos (by omega)]

/-- The header whose hash comes after its parent's, where hashes count nonces. -/
def countedHeader (n : Nat) : BlockHeader where
  prev := BitVec.ofNat 256 n
  nonce := UInt64.ofNat n

omit [Crypto] in
/-- The parent of a block on a root. -/
theorem ancestor_walks_child :
    letI := nonceCrypto
    ∃ a, ((({} : Chainstate).addIndex (countedHeader 0)).addIndex (countedHeader 1)).ancestorAt
      (some (countedHeader 1).hash) 0 = some a := by
  let _ := nonceCrypto
  have hempty : ∀ x, ({} : Chainstate).lookup x = none := fun x => AList.lookup_empty x
  have hroot : (({} : Chainstate).addIndex (countedHeader 0)).Built := .first _ hempty rfl
  have hnode := addIndex_first_node hempty (countedHeader 0)
  have hp : (countedHeader 1).prev ∈ (({} : Chainstate).addIndex (countedHeader 0)).index := by
    have heq : (countedHeader 1).prev = (countedHeader 0).hash := by decide +kernel
    have hat := congrFun hnode (countedHeader 0).hash
    rw [if_pos rfl] at hat
    rw [← node_isSome, heq, hat]
    rfl
  have hnew : (countedHeader 1).hash ∉ (({} : Chainstate).addIndex (countedHeader 0)).index := by
    have hne : (countedHeader 1).hash ≠ (countedHeader 0).hash := by decide +kernel
    have hat := congrFun hnode (countedHeader 1).hash
    rw [if_neg hne] at hat
    rw [← node_isSome, hat]
    exact Bool.false_ne_true
  have hb : (countedHeader 1).hash ∈
      ((({} : Chainstate).addIndex (countedHeader 0)).addIndex (countedHeader 1)).index := by
    rw [← node_isSome, addIndex_node hp]
    have hhash := newEntry_hash (({} : Chainstate).addIndex (countedHeader 0)) (countedHeader 1)
    rw [← hhash]
    exact Option.isSome_of_eq_some (Nodes.grow_self _ _ _)
  obtain ⟨a, -, -, -, ha, -⟩ :=
    (ancestor_walks (hroot.add hp hnew) hb 0).1 (Int.le_refl 0) (Int.natCast_nonneg _)
  exact ⟨a, ha⟩

end Chainstate

end QuantCore
