import Mathlib.Data.List.Induction
import QuantCore.Crypto.Instances
import QuantCore.Lib.Merkle
import QuantCore.Primitives.Block

/-!
# Merkle proofs

`merkle_root` hashes the pairs of each level and carries an odd node;
`merkle_verify` climbs a path whose leaf count, index and siblings all come from
the prover. Among the byte strings hashed on either side no two have one hash,
and none hashes to zero, the root of no transactions. Then a path that reaches
the root started at a leaf.
-/

namespace QuantCore

/-! ## What is hashed -/

/-- The pairs a level is made of. -/
def levelPairs : List Hash256 → List (Hash256 × Hash256)
  | a :: b :: rest => (a, b) :: levelPairs rest
  | _ => []

variable [Crypto]

def merkleLoopPairs : Nat → List Hash256 → List (Hash256 × Hash256)
  | 0, _ => []
  | k + 1, l => levelPairs l ++ merkleLoopPairs k (merkleLevel l)

/-- The pairs `merkle_root` hashes. -/
def merkleRootPairs (leaves : List Hash256) : List (Hash256 × Hash256) :=
  merkleLoopPairs leaves.length leaves

/-- The pairs the loop of `merkle_verify` hashes. -/
def merkleVerifyPairs : List Hash256 → Nat → Nat → Hash256 → List (Hash256 × Hash256)
  | [], _, _, _ => []
  | sibling :: proof, index, n, h =>
      if n > 1 then
        if index ^^^ 1 < n then
          let pair := if index % 2 = 1 then (sibling, h) else (h, sibling)
          pair :: merkleVerifyPairs proof (index / 2) ((n + 1) / 2)
            (merkleNode pair.1 pair.2)
        else merkleVerifyPairs proof (index / 2) ((n + 1) / 2) h
      else []

omit [Crypto] in
/-- A pair as it is hashed. -/
def nodeString (p : Hash256 × Hash256) : Ctx × Bytes := (.merkle, p.1.bytes ++ p.2.bytes)

/-- The byte strings have hashes of their own, different from zero. -/
def CollisionFree (strings : List (Ctx × Bytes)) : Prop :=
  ∀ x ∈ strings, blake3Tagged x.1 x.2 ≠ 0 ∧
    ∀ y ∈ strings, blake3Tagged x.1 x.2 = blake3Tagged y.1 y.2 → x = y

omit [Crypto] in
theorem Hash256.bytes_injective : Function.Injective Hash256.bytes :=
  Function.LeftInverse.injective Hash256.ofBytes_bytes

omit [Crypto] in
theorem nodeString_injective : Function.Injective nodeString := by
  intro p q h
  have hb : p.1.bytes ++ p.2.bytes = q.1.bytes ++ q.2.bytes := congrArg Prod.snd h
  obtain ⟨h1, h2⟩ := List.append_inj hb (by rw [Hash256.bytes_length, Hash256.bytes_length])
  exact Prod.ext (Hash256.bytes_injective h1) (Hash256.bytes_injective h2)

/-! ## The tree and the path -/

/-- The pairs whose string is among `strings`. -/
def PairOf (strings : List (Ctx × Bytes)) (a b : Hash256) : Prop :=
  nodeString (a, b) ∈ strings

open Merkle

theorem over_merkleLevel {K : Hash256 → Hash256 → Prop} {leaves l : List Hash256}
    (hl : ∀ a ∈ l, Over merkleNode K leaves a)
    (hp : ∀ p ∈ levelPairs l, K p.1 p.2) :
    ∀ a ∈ merkleLevel l, Over merkleNode K leaves a := by
  induction l using merkleLevel.induct with
  | case1 a b rest ih =>
      rw [merkleLevel]
      rw [levelPairs] at hp
      rw [List.forall_mem_cons] at hp ⊢
      rw [List.forall_mem_cons, List.forall_mem_cons] at hl
      exact ⟨.node hp.1 hl.1 hl.2.1, ih hl.2.2 hp.2⟩
  | case2 l hnot =>
      rw [merkleLevel.eq_2 l hnot]
      exact hl

theorem merkleLevel_ne_nil {l : List Hash256} (h : l ≠ []) : merkleLevel l ≠ [] := by
  cases l with
  | nil => exact absurd rfl h
  | cons a l =>
      cases l with
      | nil => exact h
      | cons b l => exact List.cons_ne_nil _ _

theorem over_merkleLoop {K : Hash256 → Hash256 → Prop} {leaves : List Hash256} (k : Nat)
    {l : List Hash256} (hne : l ≠ [])
    (hl : ∀ a ∈ l, Over merkleNode K leaves a)
    (hp : ∀ p ∈ merkleLoopPairs k l, K p.1 p.2) :
    Over merkleNode K leaves (merkleLoop k l) := by
  induction k generalizing l with
  | zero =>
      cases l with
      | nil => exact absurd rfl hne
      | cons a l =>
          have ha := hl a List.mem_cons_self
          cases l with
          | nil => exact ha
          | cons b l => exact ha
  | succ k ih =>
      cases l with
      | nil => exact absurd rfl hne
      | cons a l =>
          cases l with
          | nil => exact hl a List.mem_cons_self
          | cons b l =>
              rw [merkleLoopPairs, List.forall_mem_append] at hp
              exact ih (merkleLevel_ne_nil hne) (over_merkleLevel hl hp.1) hp.2

theorem over_merkleRoot {K : Hash256 → Hash256 → Prop} {leaves : List Hash256}
    (hne : leaves ≠ []) (hp : ∀ p ∈ merkleRootPairs leaves, K p.1 p.2) :
    Over merkleNode K leaves (merkleRoot leaves) :=
  over_merkleLoop leaves.length hne (fun _ ha => .leaf ha) hp

theorem inside_merkleVerifyLoop {K : Hash256 → Hash256 → Prop} {x : Hash256}
    {proof : List Hash256} {index n : Nat} {h y : Hash256}
    (hx : Inside merkleNode K x h)
    (hp : ∀ p ∈ merkleVerifyPairs proof index n h, K p.1 p.2)
    (hy : merkleVerifyLoop proof index n h = some y) :
    Inside merkleNode K x y := by
  induction proof generalizing index n h with
  | nil =>
      rw [merkleVerifyLoop] at hy
      split at hy
      · cases hy
      · cases hy
        exact hx
  | cons sibling proof ih =>
      rw [merkleVerifyLoop] at hy
      rw [merkleVerifyPairs] at hp
      split at hy
      · next hn =>
          rw [if_pos hn] at hp
          split at hy
          · next hs =>
              rw [if_pos hs, List.forall_mem_cons] at hp
              split at hy
              · next hodd =>
                  rw [if_pos hodd] at hp
                  exact ih (.right hp.1 hx) hp.2 hy
              · next heven =>
                  rw [if_neg heven] at hp
                  exact ih (.left hp.1 hx) hp.2 hy
          · next hs =>
              rw [if_neg hs] at hp
              split at hy
              · exact ih hx hp hy
              · cases hy
      · cases hy

/-! ## The root binds its leaves

One level up is a list of trees one level higher, whatever the shapes are that
the carried nodes leave behind; the loop ends with the tree of all leaves. -/

/-- Among these pairs `merkle_node` is injective, and none of the values is a
node. -/
structure NodesBind (pairs : List (Hash256 × Hash256)) (values : List Hash256) : Prop where
  inj : ∀ p ∈ pairs, ∀ q ∈ pairs, merkleNode p.1 p.2 = merkleNode q.1 q.2 → p = q
  fresh : ∀ v ∈ values, ∀ p ∈ pairs, merkleNode p.1 p.2 ≠ v

/-- Equal nodes of the pairs are the same node, to be computed. -/
def nodesDiffer (pairs : List (Hash256 × Hash256)) : Bool :=
  pairs.all fun p => pairs.all fun q => merkleNode p.1 p.2 != merkleNode q.1 q.2 || p == q

theorem inj_of_nodesDiffer {pairs : List (Hash256 × Hash256)} (h : nodesDiffer pairs = true) :
    ∀ p ∈ pairs, ∀ q ∈ pairs, merkleNode p.1 p.2 = merkleNode q.1 q.2 → p = q := by
  intro p hp q hq he
  have hpq := List.all_eq_true.mp (List.all_eq_true.mp h p hp) q hq
  rw [he, bne_self_eq_false, Bool.false_or] at hpq
  exact eq_of_beq hpq

theorem NodesBind.node_inj {pairs : List (Hash256 × Hash256)} {values : List Hash256}
    (h : NodesBind pairs values) {a b c d : Hash256} (hab : (a, b) ∈ pairs)
    (hcd : (c, d) ∈ pairs) (he : merkleNode a b = merkleNode c d) : a = c ∧ b = d :=
  Prod.ext_iff.mp (h.inj (a, b) hab (c, d) hcd he)

theorem exists_trees_level {K : Hash256 → Hash256 → Prop} (ts : List (Merkle.Tree Hash256))
    (hts : ∀ t ∈ ts, t.Hashes merkleNode K)
    (hp : ∀ p ∈ levelPairs (ts.map (Merkle.Tree.value merkleNode)), K p.1 p.2) :
    ∃ us : List (Merkle.Tree Hash256),
      us.map (Merkle.Tree.value merkleNode) = merkleLevel (ts.map (Merkle.Tree.value merkleNode)) ∧
        us.flatMap Merkle.Tree.leaves = ts.flatMap Merkle.Tree.leaves ∧
        ∀ u ∈ us, u.Hashes merkleNode K := by
  induction ts using List.twoStepInduction with
  | nil => exact ⟨[], rfl, rfl, hts⟩
  | singleton t => exact ⟨[t], rfl, rfl, hts⟩
  | cons_cons t u ts ih _ =>
      rw [List.map_cons, List.map_cons, levelPairs, List.forall_mem_cons] at hp
      rw [List.forall_mem_cons, List.forall_mem_cons] at hts
      obtain ⟨us, hval, hleaves, hus⟩ := ih hts.2.2 hp.2
      refine ⟨.node t u :: us, ?_, ?_, ?_⟩
      · rw [List.map_cons, List.map_cons, List.map_cons, merkleLevel, hval]
        rfl
      · rw [List.flatMap_cons, List.flatMap_cons, List.flatMap_cons, hleaves, Merkle.Tree.leaves,
          List.append_assoc]
      · rw [List.forall_mem_cons]
        exact ⟨⟨hp.1, hts.1, hts.2.1⟩, hus⟩

theorem merkleLevel_length (l : List Hash256) : (merkleLevel l).length = (l.length + 1) / 2 := by
  induction l using merkleLevel.induct with
  | case1 a b rest ih =>
      rw [merkleLevel, List.length_cons, ih, List.length_cons, List.length_cons]
      omega
  | case2 l hnot =>
      rw [merkleLevel.eq_2 l hnot]
      cases l with
      | nil => rfl
      | cons a l =>
          cases l with
          | nil =>
              rw [List.length_singleton]
          | cons b l => exact absurd rfl (hnot a b l)

theorem exists_tree_loop {K : Hash256 → Hash256 → Prop} (k : Nat)
    (ts : List (Merkle.Tree Hash256)) (hne : ts ≠ []) (hk : ts.length ≤ k) (hts : ∀ t ∈ ts, t.Hashes merkleNode K)
    (hp : ∀ p ∈ merkleLoopPairs k (ts.map (Merkle.Tree.value merkleNode)), K p.1 p.2) :
    ∃ u : Merkle.Tree Hash256,
      u.value merkleNode = merkleLoop k (ts.map (Merkle.Tree.value merkleNode)) ∧
      u.leaves = ts.flatMap Merkle.Tree.leaves ∧ u.Hashes merkleNode K := by
  induction k generalizing ts with
  | zero => exact absurd (List.length_eq_zero_iff.mp (Nat.le_zero.mp hk)) hne
  | succ k ih =>
      cases ts with
      | nil => exact absurd rfl hne
      | cons t ts =>
          cases ts with
          | nil => exact ⟨t, rfl, (List.append_nil _).symm, hts t List.mem_cons_self⟩
          | cons t' ts =>
              rw [merkleLoopPairs, List.forall_mem_append] at hp
              obtain ⟨us, hval, hleaves, hus⟩ := exists_trees_level _ hts hp.1
              rw [← hval] at hp
              have hlen : us.length = ((t :: t' :: ts).length + 1) / 2 := by
                rw [← List.length_map (Merkle.Tree.value merkleNode), hval, merkleLevel_length,
                  List.length_map]
              simp only [List.length_cons] at hlen hk
              have hne' : us ≠ [] := by
                rintro rfl
                rw [List.length_nil] at hlen
                omega
              obtain ⟨u, hu, hul, huh⟩ := ih us hne' (by omega) hus hp.2
              refine ⟨u, ?_, hul.trans hleaves, huh⟩
              rw [hu, hval]
              rfl

/-- The root of a list is the value of a tree over it. -/
theorem exists_tree_root {K : Hash256 → Hash256 → Prop} {l : List Hash256} (hne : l ≠ [])
    (hp : ∀ p ∈ merkleRootPairs l, K p.1 p.2) :
    ∃ u : Merkle.Tree Hash256, u.value merkleNode = merkleRoot l ∧ u.leaves = l ∧
      u.Hashes merkleNode K := by
  have hval : (l.map Merkle.Tree.leaf).map (Merkle.Tree.value merkleNode) = l := by
    rw [List.map_map]
    exact List.map_id l
  have hleaves : (l.map Merkle.Tree.leaf).flatMap Merkle.Tree.leaves = l := by
    rw [List.flatMap_map]
    exact List.flatMap_singleton' l
  have h := @exists_tree_loop _ K l.length (l.map Merkle.Tree.leaf)
    (fun h => hne (List.map_eq_nil_iff.mp h)) (List.length_map _).le
    (by
      intro t ht
      obtain ⟨a, -, rfl⟩ := List.mem_map.mp ht
      exact trivial)
    (by rwa [hval])
  rwa [hval, hleaves] at h

/-- Lists of leaves with the same root are the same, whatever their lengths. -/
theorem leaves_unique {l₁ l₂ : List Hash256} (h₁ : l₁ ≠ []) (h₂ : l₂ ≠ [])
    (hb : NodesBind (merkleRootPairs l₁ ++ merkleRootPairs l₂) (l₁ ++ l₂))
    (h : merkleRoot l₁ = merkleRoot l₂) : l₁ = l₂ := by
  obtain ⟨t, ht, htl, hth⟩ :=
    @exists_tree_root _ (fun a b => (a, b) ∈ merkleRootPairs l₁ ++ merkleRootPairs l₂) l₁ h₁
      fun p hp => List.mem_append_left _ hp
  obtain ⟨u, hu, hul, huh⟩ :=
    @exists_tree_root _ (fun a b => (a, b) ∈ merkleRootPairs l₁ ++ merkleRootPairs l₂) l₂ h₂
      fun p hp => List.mem_append_right _ hp
  have heq : t = u := by
    refine Merkle.Tree.ext_value hth huh (fun a b c d hab hcd => hb.node_inj hab hcd) ?_
      (ht.trans (h.trans hu.symm))
    intro y hy a b hab
    rw [htl, hul] at hy
    exact hb.fresh y hy (a, b) hab
  rw [← htl, ← hul, heq]

/-- The byte strings whose hashes a block's two roots are made of. -/
def bodyStrings (b : Block) : List (Ctx × Bytes) :=
  b.txs.map (fun t => (.txid, t.writeCore)) ++ b.txs.map (fun t => (.wtxid, t.writeWitnesses)) ++
    (merkleRootPairs (b.txs.map Transaction.txid)).map nodeString ++
    (merkleRootPairs (b.txs.map Transaction.witnessHash)).map nodeString

/-- Hashes under other contexts are told apart from the nodes. -/
theorem CollisionFree.nodesBind {strings : List (Ctx × Bytes)} (hc : CollisionFree strings)
    {pairs : List (Hash256 × Hash256)} {values : List Hash256}
    (hp : ∀ p ∈ pairs, nodeString p ∈ strings)
    (hv : ∀ v ∈ values, ∃ x ∈ strings, x.1 ≠ .merkle ∧ blake3Tagged x.1 x.2 = v) :
    NodesBind pairs values where
  inj := fun p hp' q hq' h => nodeString_injective ((hc _ (hp p hp')).2 _ (hp q hq') h)
  fresh := fun v hv' p hp' h => by
    obtain ⟨x, hx, hctx, rfl⟩ := hv v hv'
    exact hctx (congrArg Prod.fst ((hc _ (hp p hp')).2 x hx h)).symm

omit [Crypto] in
theorem eq_of_map_eq {α β : Type} {f : α → β} {l l' : List α}
    (hf : ∀ x ∈ l, ∀ y ∈ l', f x = f y → x = y) (h : l.map f = l'.map f) : l = l' := by
  induction l generalizing l' with
  | nil => exact (List.map_eq_nil_iff.mp h.symm).symm
  | cons a l ih =>
      cases l' with
      | nil => cases h
      | cons b l' =>
          rw [List.map_cons, List.map_cons, List.cons.injEq] at h
          rw [hf a List.mem_cons_self b List.mem_cons_self h.1,
            ih (fun x hx y hy => hf x (List.mem_cons_of_mem _ hx) y (List.mem_cons_of_mem _ hy)) h.2]

/-- Two bodies with one root, each transaction counted by its hash under `c`. -/
theorem body_unique {a b : Block} (ha : a.txs ≠ []) (hb : b.txs ≠ [])
    (hc : CollisionFree (bodyStrings a ++ bodyStrings b)) {c : Ctx}
    {part : Transaction → Bytes} {id : Transaction → Hash256}
    (hid : ∀ t, id t = blake3Tagged c (part t)) (hctx : c ≠ .merkle)
    (hpart : ∀ x : Block, ∀ t ∈ x.txs, (c, part t) ∈ bodyStrings x)
    (hpairs : ∀ x : Block, ∀ p ∈ merkleRootPairs (x.txs.map id), nodeString p ∈ bodyStrings x)
    (h : merkleRoot (a.txs.map id) = merkleRoot (b.txs.map id)) :
    a.txs.map part = b.txs.map part := by
  have hin : ∀ t, t ∈ a.txs ∨ t ∈ b.txs → (c, part t) ∈ bodyStrings a ++ bodyStrings b := by
    rintro t (ht | ht)
    · exact List.mem_append_left _ (hpart a t ht)
    · exact List.mem_append_right _ (hpart b t ht)
  have hbind : NodesBind (merkleRootPairs (a.txs.map id) ++ merkleRootPairs (b.txs.map id))
      (a.txs.map id ++ b.txs.map id) := by
    refine hc.nodesBind (fun p hp => ?_) (fun v hv => ?_)
    · rcases List.mem_append.mp hp with hp | hp
      · exact List.mem_append_left _ (hpairs a p hp)
      · exact List.mem_append_right _ (hpairs b p hp)
    · rw [← List.map_append] at hv
      obtain ⟨t, ht, rfl⟩ := List.mem_map.mp hv
      exact ⟨_, hin t (List.mem_append.mp ht), hctx, (hid t).symm⟩
  have hids : a.txs.map id = b.txs.map id := leaves_unique
    (fun h => ha (List.map_eq_nil_iff.mp h)) (fun h => hb (List.map_eq_nil_iff.mp h)) hbind h
  refine eq_of_map_eq (f := blake3Tagged c) ?_ ?_
  · intro x hx y hy hxy
    obtain ⟨s, hs, rfl⟩ := List.mem_map.mp hx
    obtain ⟨t, ht, rfl⟩ := List.mem_map.mp hy
    exact congrArg Prod.snd ((hc _ (hin s (.inl hs))).2 _ (hin t (.inr ht)) hxy)
  · have hcomp : ∀ l : List Transaction, (l.map part).map (blake3Tagged c) = l.map id := by
      intro l
      rw [List.map_map]
      exact List.map_congr_left fun t _ => (hid t).symm
    rw [hcomp, hcomp, hids]

/-- A root determines its list of leaves, and a block's two roots the bytes of its
transactions and of their witnesses, one by one. -/
theorem merkle_root_binds :
    (∀ l₁ l₂ : List Hash256, l₁ ≠ [] → l₂ ≠ [] →
      NodesBind (merkleRootPairs l₁ ++ merkleRootPairs l₂) (l₁ ++ l₂) →
      merkleRoot l₁ = merkleRoot l₂ → l₁ = l₂) ∧
    ∀ a b : Block, a.txs ≠ [] → b.txs ≠ [] → CollisionFree (bodyStrings a ++ bodyStrings b) →
      (a.computeMerkleRoot = b.computeMerkleRoot →
        a.txs.map Transaction.writeCore = b.txs.map Transaction.writeCore) ∧
      (a.computeWitnessRoot = b.computeWitnessRoot →
        a.txs.map Transaction.writeWitnesses = b.txs.map Transaction.writeWitnesses) := by
  refine ⟨fun l₁ l₂ h₁ h₂ hb h => leaves_unique h₁ h₂ hb h, fun a b ha hb hc => ⟨?_, ?_⟩⟩
  · refine body_unique ha hb hc (c := .txid) (fun _ => rfl) (by decide) (fun x t ht => ?_)
      (fun x p hp => ?_)
    · simp only [bodyStrings, List.append_assoc]
      exact List.mem_append_left _ (List.mem_map_of_mem ht)
    · simp only [bodyStrings]
      exact List.mem_append_left _ (List.mem_append_right _ (List.mem_map_of_mem hp))
  · refine body_unique ha hb hc (c := .wtxid) (fun _ => rfl) (by decide) (fun x t ht => ?_)
      (fun x p hp => ?_)
    · simp only [bodyStrings]
      exact List.mem_append_left _ (List.mem_append_left _
        (List.mem_append_right _ (List.mem_map_of_mem ht)))
    · simp only [bodyStrings]
      exact List.mem_append_right _ (List.mem_map_of_mem hp)

/-! ## Soundness -/

theorem CollisionFree.node_inj {strings : List (Ctx × Bytes)} (hc : CollisionFree strings)
    {a b c d : Hash256} (hab : PairOf strings a b) (hcd : PairOf strings c d)
    (h : merkleNode a b = merkleNode c d) : a = c ∧ b = d := by
  have hp := nodeString_injective ((hc _ hab).2 _ hcd h)
  exact Prod.ext_iff.mp hp

/-- A transaction's id is no node: the two are hashed under different contexts. -/
theorem CollisionFree.node_ne_txid {strings : List (Ctx × Bytes)} (hc : CollisionFree strings)
    {a b : Hash256} (hab : PairOf strings a b) {core : Bytes}
    (hcore : (Ctx.txid, core) ∈ strings) : merkleNode a b ≠ blake3Tagged .txid core := by
  intro h
  cases (hc _ hab).2 _ hcore h

theorem CollisionFree.inside_ne_zero {strings : List (Ctx × Bytes)}
    (hc : CollisionFree strings) {core : Bytes} (hcore : (Ctx.txid, core) ∈ strings)
    {y : Hash256}
    (h : Inside merkleNode (PairOf strings) (blake3Tagged .txid core) y) : y ≠ 0 := by
  cases h with
  | here => exact (hc _ hcore).1
  | left hk _ => exact (hc _ hk).1
  | right hk _ => exact (hc _ hk).1

/-- Whatever leaf count, index and siblings a prover names: a path from the hash
of `core` that reaches the root of some transactions starts at one of them. -/
theorem merkleVerify_sound {strings : List (Ctx × Bytes)} (hc : CollisionFree strings)
    {txs : List Transaction} {core : Bytes} {index count : Nat} {proof : List Hash256}
    (hcore : (Ctx.txid, core) ∈ strings)
    (hpath : ∀ p ∈ merkleVerifyPairs proof index count (blake3Tagged .txid core),
      nodeString p ∈ strings)
    (hcores : ∀ t ∈ txs, (Ctx.txid, t.writeCore) ∈ strings)
    (htree : ∀ p ∈ merkleRootPairs (txs.map Transaction.txid), nodeString p ∈ strings)
    (h : merkleVerify (blake3Tagged .txid core) index count proof
      (merkleRoot (txs.map Transaction.txid)) = true) :
    ∃ t ∈ txs, t.writeCore = core := by
  rw [merkleVerify] at h
  split at h
  · cases h
  · have hinside := @inside_merkleVerifyLoop _ (PairOf strings) _ _ _ _ _ _ .here hpath
      (eq_of_beq h)
    have hne : txs.map Transaction.txid ≠ [] := by
      intro hnil
      rw [hnil] at hinside
      exact hc.inside_ne_zero hcore hinside rfl
    have hmem := hinside.mem_leaves (@over_merkleRoot _ (PairOf strings) _ hne htree)
      (fun _ _ _ _ hab hcd => hc.node_inj hab hcd) (by
        intro y hy a b hab
        rcases List.mem_cons.mp hy with rfl | hy
        · exact hc.node_ne_txid hab hcore
        · obtain ⟨t, ht, rfl⟩ := List.mem_map.mp hy
          exact hc.node_ne_txid hab (hcores t ht))
    obtain ⟨t, ht, hid⟩ := List.mem_map.mp hmem
    have hstring := (hc _ (hcores t ht)).2 _ hcore hid
    exact ⟨t, ht, congrArg Prod.snd hstring⟩

end QuantCore

namespace QuantCore

attribute [local instance] plainCrypto

/-- A block with one transaction, its witness a reference. -/
def signedBlock : Block :=
  { header := default, txs := [{ ins := [default], witness := [.ref 1] }] }

theorem merkle_root_binds_pair : ([1, 2] : List Hash256) = [1, 2] ∧
    signedBlock.txs.map Transaction.writeWitnesses =
      signedBlock.txs.map Transaction.writeWitnesses := by
  have hfresh : (([1, 2] ++ [1, 2] : List Hash256).all fun v =>
      (merkleRootPairs [1, 2] ++ merkleRootPairs [1, 2]).all fun p =>
        merkleNode p.1 p.2 != v) = true := by
    decide +kernel
  have hb : NodesBind (merkleRootPairs [1, 2] ++ merkleRootPairs [1, 2]) ([1, 2] ++ [1, 2]) :=
    ⟨inj_of_nodesDiffer (by decide +kernel), fun v hv p hp =>
      bne_iff_ne.mp (List.all_eq_true.mp (List.all_eq_true.mp hfresh v hv) p hp)⟩
  have hc : CollisionFree (bodyStrings signedBlock ++ bodyStrings signedBlock) := by
    rw [CollisionFree]
    decide +kernel
  have hne : signedBlock.txs ≠ [] := List.cons_ne_nil _ _
  exact ⟨merkle_root_binds.1 [1, 2] [1, 2] (by decide) (by decide) hb rfl,
    (merkle_root_binds.2 signedBlock signedBlock hne hne hc).2 rfl⟩

end QuantCore
