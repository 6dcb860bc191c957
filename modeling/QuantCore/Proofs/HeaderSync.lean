import QuantCore.Crypto.Instances
import QuantCore.Net.HeaderSync
import QuantCore.Proofs.Codec
import QuantCore.Proofs.Rooted

/-!
# How far a locator overshoots

A locator names the block at distance `locatorOffset j` below the best header,
for every `j`: the distances 0 to 11, then 13, 17, 25 and so on, doubling. The
answer starts above the highest of these blocks that the peer has on its active
chain, and is cut after 2000 headers. So it holds a header the asking node lacks
exactly if the first such header is at most 2000 above that block; between two
far entries of the locator, or where the node has a part of the peer's branch
already, it need not be.
-/

namespace QuantCore

open Codec Maps Forest

/-! ## The heights of a locator -/

/-- How far below the best header entry `j` of a locator is. -/
def locatorOffset (j : Nat) : Nat := if j ≤ 10 then j else 9 + 2 ^ (j - 10)

/-- The distance from entry `j` to the next. -/
def locatorStep (j : Nat) : Nat := if j ≤ 10 then 1 else 2 ^ (j - 10)

theorem locatorOffset_succ (j : Nat) :
    locatorOffset (j + 1) = locatorOffset j + locatorStep j := by
  rw [locatorOffset, locatorOffset, locatorStep]
  by_cases h : j ≤ 9
  · rw [if_pos (by omega), if_pos (by omega), if_pos (by omega)]
  · by_cases h10 : j = 10
    · subst h10
      decide
    · have hj : j + 1 - 10 = j - 10 + 1 := by omega
      rw [if_neg (by omega), if_neg (by omega), if_neg (by omega), hj, Nat.pow_succ]
      omega

theorem locatorStep_succ (j : Nat) :
    (if j + 1 > 10 then locatorStep j * 2 else locatorStep j) = locatorStep (j + 1) := by
  rw [locatorStep, locatorStep]
  by_cases h : j ≤ 9
  · rw [if_neg (by omega), if_pos (by omega), if_pos (by omega)]
  · by_cases h10 : j = 10
    · subst h10
      decide
    · have hj : j + 1 - 10 = j - 10 + 1 := by omega
      rw [if_pos (by omega), if_neg (by omega), if_neg (by omega), hj, Nat.pow_succ]

theorem locatorStep_pos (j : Nat) : 0 < locatorStep j := by
  rw [locatorStep]
  split
  · exact Nat.one_pos
  · exact Nat.two_pow_pos _

theorem le_locatorOffset (j : Nat) : j ≤ locatorOffset j := by
  induction j with
  | zero => exact Nat.zero_le _
  | succ j ih =>
      have h := locatorStep_pos j
      rw [locatorOffset_succ]
      omega

theorem locatorOffset_mono {i j : Nat} (h : i ≤ j) : locatorOffset i ≤ locatorOffset j := by
  induction h with
  | refl => exact Nat.le_refl _
  | step h ih =>
      rw [Nat.succ_eq_add_one, locatorOffset_succ]
      omega

/-- The loop of `locator`, on heights alone. -/
def locatorHeights : Nat → Nat → Nat → Nat → List Nat
  | 0, _, _, _ => []
  | k + 1, h, step, size =>
      h ::
        if h = 0 then []
        else locatorHeights k (h - step) (if size + 1 > 10 then step * 2 else step) (size + 1)

theorem mem_locatorHeights {k top j f : Nat} (hk : top - locatorOffset j < k) :
    f ∈ locatorHeights k (top - locatorOffset j) (locatorStep j) j ↔
      ∃ i, j ≤ i ∧ f = top - locatorOffset i := by
  induction k generalizing j with
  | zero => omega
  | succ k ih =>
      have hnext := locatorOffset_succ j
      have hpos := locatorStep_pos j
      have hsub : top - locatorOffset j - locatorStep j = top - locatorOffset (j + 1) := by omega
      rw [locatorHeights, locatorStep_succ, hsub]
      split
      · next h0 =>
          rw [h0, List.mem_singleton]
          constructor
          · rintro rfl
            exact ⟨j, Nat.le_refl j, h0.symm⟩
          · rintro ⟨i, hi, rfl⟩
            have := locatorOffset_mono hi
            omega
      · next h0 =>
          rw [List.mem_cons, ih (by omega)]
          constructor
          · rintro (rfl | ⟨i, hi, rfl⟩)
            · exact ⟨j, Nat.le_refl j, rfl⟩
            · exact ⟨i, by omega, rfl⟩
          · rintro ⟨i, hi, rfl⟩
            rcases Nat.eq_or_lt_of_le hi with rfl | hlt
            · exact .inl rfl
            · exact .inr ⟨i, hlt, rfl⟩

theorem locatorHeights_pairwise {k top j : Nat} (hk : top - locatorOffset j < k) :
    (locatorHeights k (top - locatorOffset j) (locatorStep j) j).Pairwise (· > ·) := by
  induction k generalizing j with
  | zero => omega
  | succ k ih =>
      have hnext := locatorOffset_succ j
      have hpos := locatorStep_pos j
      have hsub : top - locatorOffset j - locatorStep j = top - locatorOffset (j + 1) := by omega
      rw [locatorHeights, locatorStep_succ, hsub]
      split
      · exact List.pairwise_singleton ..
      · next h0 =>
          refine List.pairwise_cons.mpr ⟨fun f hf => ?_, ih (by omega)⟩
          obtain ⟨i, hi, rfl⟩ := (mem_locatorHeights (by omega)).mp hf
          have := locatorOffset_mono hi
          omega

/-- Heights are signed 64-bit numbers, and so a locator fits into a message. -/
theorem length_locatorHeights {k top j : Nat} (htop : top < 2 ^ 63) (hj : j ≤ 74) :
    (locatorHeights k (top - locatorOffset j) (locatorStep j) j).length ≤ 75 - j := by
  induction k generalizing j with
  | zero => exact Nat.zero_le _
  | succ k ih =>
      have hnext := locatorOffset_succ j
      have hsub : top - locatorOffset j - locatorStep j = top - locatorOffset (j + 1) := by omega
      rw [locatorHeights, locatorStep_succ, hsub]
      split
      · rw [List.length_singleton]
        omega
      · next h0 =>
          have hlt : j ≠ 74 := by
            rintro rfl
            have h74 : locatorOffset 74 = 9 + 2 ^ 64 := by decide
            omega
          have hrest := ih (j := j + 1) (by omega)
          rw [List.length_cons]
          omega

/-! ## The first entry a peer knows -/

/-- Of a descending list of heights, the first whose block passes the test. -/
theorem find_descending {α : Type} {branch : Nat → Option α} {test : α → Bool} {l : List Nat}
    (hdesc : l.Pairwise (· > ·))
    (hex : ∃ f ∈ l, ∃ y, branch f = some y ∧ test y = true) :
    ∃ f ∈ l, ∃ y, branch f = some y ∧ test y = true ∧
      (l.filterMap branch).find? test = some y ∧
      ∀ k ∈ l, ∀ z, branch k = some z → test z = true → k ≤ f := by
  induction l with
  | nil =>
      obtain ⟨f, hf, -⟩ := hex
      cases hf
  | cons h l ih =>
      obtain ⟨hlt, hdesc⟩ := List.pairwise_cons.mp hdesc
      by_cases hhere : ∃ y, branch h = some y ∧ test y = true
      · obtain ⟨y, hy, ht⟩ := hhere
        refine ⟨h, List.mem_cons_self .., y, hy, ht, ?_, fun k hk z _ _ => ?_⟩
        · rw [List.filterMap_cons_some hy, List.find?_cons_of_pos ht]
        · rcases List.mem_cons.mp hk with rfl | hk
          · exact Nat.le_refl _
          · exact Nat.le_of_lt (hlt k hk)
      · obtain ⟨f, hf, y, hy, ht⟩ := hex
        have hfl : f ∈ l := by
          rcases List.mem_cons.mp hf with rfl | hf
          · exact absurd ⟨y, hy, ht⟩ hhere
          · exact hf
        obtain ⟨f, hf, y, hy, ht, hfind, hmax⟩ := ih hdesc ⟨f, hfl, y, hy, ht⟩
        refine ⟨f, List.mem_cons_of_mem h hf, y, hy, ht, ?_, fun k hk z hz htz => ?_⟩
        · cases hb : branch h with
          | none => rw [List.filterMap_cons_none hb, hfind]
          | some x =>
              have hx : ¬ test x = true := fun htx => hhere ⟨x, hb, htx⟩
              rw [List.filterMap_cons_some hb, List.find?_cons_of_neg hx, hfind]
        · rcases List.mem_cons.mp hk with rfl | hk
          · exact absurd ⟨z, hz, htz⟩ hhere
          · exact hmax k hk z hz htz

namespace Chainstate

variable [Crypto] {g : Hash256} {s t : Chainstate}

/-- The block at height `k` on the branch of `b`. -/
def branchAt (s : Chainstate) (b : Hash256) (k : Nat) : Option Hash256 :=
  up (Nodes.parent s.node) (Nodes.height s.node b - k) b

theorem locatorLoop_eq (hs : s.Rooted g) {b : Hash256} (hb : (s.node b).isSome)
    (k : Nat) {h : Nat} {w : Hash256} (hh : h ≤ Nodes.height s.node b)
    (hw : s.branchAt b h = some w) (step size : Nat) :
    s.locatorLoop k w step size =
      (locatorHeights k h step size).filterMap (s.branchAt b) := by
  induction k generalizing h w step size with
  | zero => rfl
  | succ k ih =>
      have hwi : (s.node w).isSome := hs.tree.isSome_up hb hw
      have hheight : Nodes.height s.node w = h := by
        have := hs.tree.ranked.rank_up hw
        omega
      obtain ⟨n, hn⟩ := Option.isSome_iff_exists.mp hwi
      have hhash : (s.entry w).hash = w := by
        have he : (s.entry w).node.hash = n.hash := by rw [entry_node hn]
        exact he.trans (hs.tree.hash w n hn).1
      rw [locatorLoop, locatorHeights, List.filterMap_cons_some hw, hhash, entry_height, hheight]
      split
      · rfl
      · have hnh : n.height = h := by rw [← Nodes.height_eq hn, hheight]
        have hanc : s.ancestor w (h - step) = s.branchAt b (h - step) := by
          rw [ancestor_eq hs.tree hs.chain hn (by omega), hnh, branchAt,
            up_sub hw (by omega : _ ≤ Nodes.height s.node b - (h - step))]
          congr 1
          omega
        obtain ⟨a, ha, -⟩ := ancestor_spec hs.tree hs.chain hwi
          (k := h - step) (by omega)
        rw [hanc] at ha
        rw [hanc, ha]
        simp only []
        rw [ih (by omega) ha]

/-- A locator from `b` names the blocks of its branch at the locator's heights. -/
theorem locator_eq (hs : s.Rooted g) {b : Hash256} (hb : (s.node b).isSome) :
    s.locator (some b) =
      (locatorHeights (Nodes.height s.node b + 1) (Nodes.height s.node b) 1 0).filterMap
        (s.branchAt b) := by
  have h0 : s.branchAt b (Nodes.height s.node b) = some b := by
    rw [branchAt, Nat.sub_self]
    rfl
  rw [locator, Option.getD_some, entry_height]
  exact locatorLoop_eq hs hb _ (Nat.le_refl _) h0 1 0

/-! ## Two nodes that know some of the same blocks -/

/-- A block both have is the same block. -/
def SameBlocks (s t : Chainstate) : Prop :=
  ∀ x n m, s.node x = some n → t.node x = some m → n.header = m.header

theorem SameBlocks.prev_eq (hst : SameBlocks s t) (hs : s.Rooted g) (ht : t.Rooted g)
    {x : Hash256} {n m : Node} (hn : s.node x = some n) (hm : t.node x = some m) :
    n.prev = m.prev := by
  have hheader := hst x n m hn hm
  obtain ⟨gn, hgn, hgnp⟩ := hs.tree.genesis
  obtain ⟨gm, hgm, hgmp⟩ := ht.tree.genesis
  cases hnp : n.prev with
  | none =>
      obtain ⟨rfl, -⟩ := hs.tree.root x n hn hnp
      rw [hgm] at hm
      cases hm
      exact hgmp.symm
  | some p =>
      cases hmp : m.prev with
      | none =>
          obtain ⟨rfl, -⟩ := ht.tree.root x m hm hmp
          rw [hgn] at hn
          cases hn
          rw [hgnp] at hnp
          cases hnp
      | some q =>
          rw [← (hs.tree.parent x n p hn hnp).1, ← (ht.tree.parent x m q hm hmp).1, hheader]

/-- Up the branch of a block both have they have the same blocks. -/
theorem SameBlocks.up_eq (hst : SameBlocks s t) (hs : s.Rooted g) (ht : t.Rooted g) (k : Nat)
    {x : Hash256} (hx : (s.node x).isSome) (hx' : (t.node x).isSome) :
    up (Nodes.parent s.node) k x = up (Nodes.parent t.node) k x := by
  induction k generalizing x with
  | zero => rfl
  | succ k ih =>
      obtain ⟨n, hn⟩ := Option.isSome_iff_exists.mp hx
      obtain ⟨m, hm⟩ := Option.isSome_iff_exists.mp hx'
      have hprev := hst.prev_eq hs ht hn hm
      rw [up, up, Nodes.parent_eq hn, Nodes.parent_eq hm, ← hprev]
      cases hp : n.prev with
      | none => rfl
      | some p =>
          obtain ⟨-, q, hq, -⟩ := hs.tree.parent x n p hn hp
          obtain ⟨-, q', hq', -⟩ := ht.tree.parent x m p hm (hprev ▸ hp)
          exact ih (by rw [hq]; rfl) (by rw [hq']; rfl)

theorem SameBlocks.height_eq (hst : SameBlocks s t) (hs : s.Rooted g) (ht : t.Rooted g)
    {x : Hash256} (hx : (s.node x).isSome) (hx' : (t.node x).isSome) :
    Nodes.height s.node x = Nodes.height t.node x := by
  obtain ⟨n, hn⟩ := Option.isSome_iff_exists.mp hx
  obtain ⟨a, ha⟩ := hs.tree.exists_up hn (Nat.le_refl _)
  have hr := hs.tree.ranked.rank_up ha
  rw [Nodes.height_eq hn] at hr ⊢
  have hag := hs.tree.eq_genesis (hs.tree.isSome_up hx ha) (by omega)
  have hr' := ht.tree.ranked.rank_up ((hst.up_eq hs ht n.height hx hx') ▸ ha)
  rw [hag, ht.tree.height_genesis] at hr'
  omega

/-- What is below a block of the peer's chain that the node has, it has too. -/
theorem SameBlocks.known_below (hst : SameBlocks s t) (hs : s.Rooted g) (ht : t.Rooted g)
    {i j : Nat} {x y : Hash256} (hx : t.chain[i]? = some x) (hy : t.chain[j]? = some y)
    (hij : i ≤ j) (hknown : y ∈ s.index) : x ∈ s.index := by
  have hyt := chain_isSome ht.tree ht.chain (List.mem_of_getElem? hy)
  have hys : (s.node y).isSome := node_isSome.mpr hknown
  have hlen := (List.getElem?_eq_some_iff.mp hy).1
  have hsnoc := chain_eq_snoc ht.chain
  have hpath := ht.chain.path
  rw [hsnoc] at hpath
  have hdl : t.chain.dropLast.length = t.chain.length - 1 := List.length_dropLast
  have hupi := hpath.up_getLast (i := i) (by omega)
  have hupj := hpath.up_getLast (i := j) (by omega)
  rw [← hsnoc, hx] at hupi
  rw [← hsnoc, hy] at hupj
  have hup := up_sub hupj (by omega : _ ≤ t.chain.dropLast.length - i)
  rw [hupi] at hup
  rw [← hst.up_eq hs ht _ hys hyt] at hup
  exact node_isSome.mp (hs.tree.isSome_up hys hup.symm)

/-! ## The answer -/

omit [Crypto] in
theorem mem_headersFrom {s : Chainstate} {stop : Hash256} {k h : Nat} {hd : BlockHeader} :
    hd ∈ s.headersFrom stop k h ↔ ∃ i y, h ≤ i ∧ i < h + k ∧ s.chain[i]? = some y ∧
      (s.entry y).header = hd ∧ (∀ j, h ≤ j → j ≤ i → (s.chain[j]?).isSome) ∧
      ∀ j, h ≤ j → j < i → s.chain[j]? ≠ some stop := by
  induction k generalizing h with
  | zero =>
      rw [headersFrom]
      constructor
      · intro hm
        cases hm
      · rintro ⟨i, y, h₁, h₂, -⟩
        omega
  | succ k ih =>
      rw [headersFrom, atHeight]
      cases hc : s.chain[h]? with
      | none =>
          constructor
          · intro hm
            cases hm
          · rintro ⟨i, y, h₁, -, -, -, hall, -⟩
            have hhere := hall h (Nat.le_refl _) h₁
            rw [hc] at hhere
            cases hhere
      | some b =>
          simp only [List.mem_cons]
          constructor
          · rintro (rfl | hm)
            · refine ⟨h, b, Nat.le_refl _, by omega, hc, rfl, fun j h₁ h₂ => ?_,
                fun j h₁ h₂ => by omega⟩
              have hj : j = h := by omega
              rw [hj, hc]
              rfl
            · split at hm
              · cases hm
              next hstop =>
              obtain ⟨i, y, h₁, h₂, hy, hh, hall, hno⟩ := ih.mp hm
              refine ⟨i, y, by omega, by omega, hy, hh, fun j g₁ g₂ => ?_, fun j g₁ g₂ => ?_⟩
              · rcases Nat.eq_or_lt_of_le g₁ with rfl | hlt
                · rw [hc]
                  rfl
                · exact hall j hlt g₂
              · rcases Nat.eq_or_lt_of_le g₁ with rfl | hlt
                · rw [hc]
                  exact fun he => hstop (Option.some.inj he)
                · exact hno j hlt g₂
          · rintro ⟨i, y, h₁, h₂, hy, hh, hall, hno⟩
            rcases Nat.eq_or_lt_of_le h₁ with rfl | hlt
            · rw [hc] at hy
              cases hy
              exact .inl hh.symm
            · right
              have hstop : b ≠ stop := by
                intro he
                exact hno h (Nat.le_refl _) hlt (by rw [hc, he])
              rw [if_neg hstop]
              exact ih.mpr ⟨i, y, hlt, by omega, hy, hh, fun j g₁ g₂ => hall j (by omega) g₂,
                fun j g₁ g₂ => hno j (by omega) g₂⟩

omit [Crypto] in
theorem length_headersFrom (s : Chainstate) (stop : Hash256) (k h : Nat) :
    (s.headersFrom stop k h).length ≤ k := by
  induction k generalizing h with
  | zero => exact Nat.le_refl 0
  | succ k ih =>
      rw [headersFrom]
      split
      · exact Nat.zero_le _
      · rw [List.length_cons]
        split
        · exact Nat.succ_le_succ (Nat.zero_le k)
        · exact Nat.succ_le_succ (ih (h + 1))

omit [Crypto] in
theorem decodes_getHeaders {loc : List Hash256} (hlen : loc.length ≤ maxLocator)
    (stop : Hash256) : Decodes readGetHeaders (writeGetHeaders loc stop) (loc, stop) := by
  have hloc : Decodes (readList maxLocator ByteReader.hash)
      (Writer.size loc.length ++ loc.flatMap Writer.hash) loc :=
    decodes_readList (by decide) hlen fun x _ => ByteReader.decodes_hash x
  exact hloc.bind (ByteReader.decodes_hash stop).bind_pure

omit [Crypto] in
theorem decodes_headers {hs : List BlockHeader} (hlen : hs.length ≤ maxHeadersPerMsg) :
    Decodes readHeaders (writeHeaders hs) hs :=
  decodes_readList (by decide) hlen fun x _ => decodes_header x

/-- The block the peer starts above: the highest of the locator's that it has on
its active chain. -/
theorem findFork_spec (hs : s.Rooted g) (ht : t.Rooted g) {b : Hash256}
    (hb : (s.node b).isSome) :
    ∃ j y, s.branchAt b (Nodes.height s.node b - locatorOffset j) = some y ∧ y ∈ t.chain ∧
      t.findForkFromLocator (s.locator (some b)) = some y ∧
      ∀ i z, s.branchAt b (Nodes.height s.node b - locatorOffset i) = some z → z ∈ t.chain →
        Nodes.height s.node b - locatorOffset i ≤ Nodes.height s.node b - locatorOffset j := by
  have htest : ∀ y, (decide (y ∈ t.index) && t.inActiveChain y) = true ↔ y ∈ t.chain := by
    intro y
    rw [Bool.and_eq_true, decide_eq_true_iff, inActiveChain_iff ht.tree ht.chain]
    exact ⟨fun h => h.2, fun h => ⟨node_isSome.mp (chain_isSome ht.tree ht.chain h), h⟩⟩
  have hmem : ∀ f, f ∈ locatorHeights (Nodes.height s.node b + 1) (Nodes.height s.node b) 1 0 ↔
      ∃ i, 0 ≤ i ∧ f = Nodes.height s.node b - locatorOffset i := by
    intro f
    exact mem_locatorHeights (j := 0) (Nat.lt_succ_of_le (Nat.sub_le _ _))
  have hgenesis : ∃ f ∈ locatorHeights (Nodes.height s.node b + 1) (Nodes.height s.node b) 1 0,
      ∃ y, s.branchAt b f = some y ∧ (decide (y ∈ t.index) && t.inActiveChain y) = true := by
    have hzero : Nodes.height s.node b - locatorOffset (Nodes.height s.node b) = 0 :=
      Nat.sub_eq_zero_of_le (le_locatorOffset _)
    obtain ⟨n, hn⟩ := Option.isSome_iff_exists.mp hb
    obtain ⟨a, ha⟩ := hs.tree.exists_up hn (Nat.le_refl _)
    rw [← Nodes.height_eq hn] at ha
    have hr := hs.tree.ranked.rank_up ha
    have hag := hs.tree.eq_genesis (hs.tree.isSome_up hb ha) (by omega)
    refine ⟨0, (hmem 0).mpr ⟨_, Nat.zero_le _, hzero.symm⟩, a, ha, (htest a).mpr ?_⟩
    rw [hag]
    exact List.mem_of_head? ht.chain.head
  have hdesc : (locatorHeights (Nodes.height s.node b + 1) (Nodes.height s.node b) 1
      0).Pairwise (· > ·) :=
    locatorHeights_pairwise (j := 0) (Nat.lt_succ_of_le (Nat.sub_le _ _))
  obtain ⟨f, hf, y, hy, hty, hfind, hmax⟩ := find_descending hdesc hgenesis
  obtain ⟨j, -, rfl⟩ := (hmem f).mp hf
  refine ⟨j, y, hy, (htest y).mp hty, ?_, fun i z hz hzt => ?_⟩
  · rw [findForkFromLocator, locator_eq hs hb, hfind]
  · exact hmax _ ((hmem _).mpr ⟨i, Nat.zero_le i, rfl⟩) z hz ((htest z).mpr hzt)

/-- The first block of the peer's active chain the node lacks is at height `u`. -/
structure FirstUnknown (s t : Chainstate) (u : Nat) : Prop where
  lacks : ∃ x, t.chain[u]? = some x ∧ x ∉ s.index
  knows : ∀ i y, i < u → t.chain[i]? = some y → y ∈ s.index

/-- Some entry of the locator from `b` is on the peer's chain with height `u` no
more than a message above it, and no block in between hashes to zero, the hash
at which the peer was asked to stop. -/
def WithinReach (s t : Chainstate) (b : Hash256) (u : Nat) : Prop :=
  ∃ j y, s.branchAt b (Nodes.height s.node b - locatorOffset j) = some y ∧ y ∈ t.chain ∧
    u ≤ Nodes.height s.node b - locatorOffset j + maxHeadersPerMsg ∧
    ∀ i, Nodes.height s.node b - locatorOffset j < i → i < u → t.chain[i]? ≠ some 0

theorem headersReply_iff (hs : s.Rooted g) (ht : t.Rooted g) (hst : SameBlocks s t)
    {b : Hash256} (hb : (s.node b).isSome) {u : Nat} (hu : FirstUnknown s t u) :
    (∃ hd ∈ t.headersReply (s.locator (some b)) 0, hd.hash ∉ s.index) ↔
      WithinReach s t b u := by
  obtain ⟨j, y, hy, hyt, hfind, hmax⟩ := findFork_spec hs ht hb
  have hys : (s.node y).isSome := hs.tree.isSome_up hb hy
  have hyti := chain_isSome ht.tree ht.chain hyt
  have hheight : Nodes.height t.node y = Nodes.height s.node b - locatorOffset j := by
    have hr := hs.tree.ranked.rank_up hy
    rw [← hst.height_eq hs ht hys hyti]
    omega
  have hat : t.chain[Nodes.height s.node b - locatorOffset j]? = some y := by
    obtain ⟨i, hi⟩ := List.getElem?_of_mem hyt
    rw [← hheight, height_getElem ht.tree ht.chain hi, hi]
  have hreply : t.headersReply (s.locator (some b)) 0 =
      t.headersFrom 0 maxHeadersPerMsg (Nodes.height s.node b - locatorOffset j + 1) := by
    rw [headersReply, hfind]
    simp only [entry_height, hheight]
  rw [hreply]
  generalize hf : Nodes.height s.node b - locatorOffset j = f at hat hmax hy
  constructor
  · rintro ⟨hd, hmem, hnew⟩
    obtain ⟨i, z, h₁, h₂, hz, hh, -, hno⟩ := mem_headersFrom.mp hmem
    obtain ⟨n, hn⟩ := Option.isSome_iff_exists.mp
      (chain_isSome ht.tree ht.chain (List.mem_of_getElem? hz))
    have hhash : hd.hash = z := by
      have he : (t.entry z).node.header = n.header := by rw [entry_node hn]
      rw [← hh]
      exact (congrArg BlockHeader.hash he).trans (ht.tree.hash z n hn).2
    rw [hhash] at hnew
    have hui : u ≤ i := by
      by_contra hlt
      exact hnew (hu.knows i z (by omega) hz)
    refine ⟨j, y, by rw [hf]; exact hy, hyt, by rw [hf]; omega, fun k hk hku => ?_⟩
    rw [hf] at hk
    exact hno k hk (by omega)
  · rintro ⟨i, z, hz, hzt, hui, hno⟩
    have hle := hmax i z hz hzt
    obtain ⟨x, hx, hxs⟩ := hu.lacks
    have hfu : f < u := by
      by_contra hge
      exact hxs (hst.known_below hs ht hx hat (by omega) (node_isSome.mp hys))
    have hlen := (List.getElem?_eq_some_iff.mp hx).1
    obtain ⟨n, hn⟩ := Option.isSome_iff_exists.mp
      (chain_isSome ht.tree ht.chain (List.mem_of_getElem? hx))
    have hhash : (t.entry x).header.hash = x := by
      have he : (t.entry x).node.header = n.header := by rw [entry_node hn]
      exact (congrArg BlockHeader.hash he).trans (ht.tree.hash x n hn).2
    refine ⟨(t.entry x).header, mem_headersFrom.mpr ⟨u, x, hfu, by omega, hx, rfl,
      fun k _ hk => ?_, fun k hk hku => hno k (by omega) hku⟩, by rw [hhash]; exact hxs⟩
    rw [List.getElem?_eq_getElem (by omega)]
    rfl

/-- The peer takes the request and answers with headers that fit into a message;
among them is one the node lacks exactly if the first it lacks is within reach
of the locator. -/
theorem headers_reply_progress (hs : s.Rooted g) (ht : t.Rooted g) (hst : SameBlocks s t)
    {b : Hash256} (hbest : s.bestHeader = some b) (hb : b ∈ s.index)
    (hheight : Nodes.height s.node b < 2 ^ 63) {u : Nat} (hu : FirstUnknown s t u) :
    ∃ payload headers, t.serveGetHeaders s.getHeadersRequest = .ok (payload, []) ∧
      readHeaders payload = .ok (headers, []) ∧
      ((∃ hd ∈ headers, hd.hash ∉ s.index) ↔ WithinReach s t b u) := by
  have hb' : (s.node b).isSome := node_isSome.mpr hb
  have hlen : (s.locator (some b)).length ≤ maxLocator := by
    have h75 := length_locatorHeights (k := Nodes.height s.node b + 1) hheight
      (Nat.zero_le 74)
    have hle := List.length_filterMap_le (s.branchAt b)
      (locatorHeights (Nodes.height s.node b + 1) (Nodes.height s.node b) 1 0)
    have hmax : maxLocator = 200 := rfl
    have hoff : Nodes.height s.node b - locatorOffset 0 = Nodes.height s.node b := rfl
    have hstep : locatorStep 0 = 1 := rfl
    rw [hoff, hstep] at h75
    rw [locator_eq hs hb']
    omega
  have hserve : Decodes t.serveGetHeaders (writeGetHeaders (s.locator (some b)) 0)
      (writeHeaders (t.headersReply (s.locator (some b)) 0)) :=
    (decodes_getHeaders hlen 0).bind_pure
  have hfit : (t.headersReply (s.locator (some b)) 0).length ≤ maxHeadersPerMsg := by
    rw [headersReply]
    split <;> exact length_headersFrom ..
  refine ⟨_, _, ?_, (decodes_headers hfit).run, headersReply_iff hs ht hst hb' hu⟩
  rw [getHeadersRequest, hbest]
  exact hserve.run

end Chainstate

end QuantCore

/-! ## A line and a branch off it -/

namespace QuantCore.Chainstate

open Codec Maps Forest

attribute [local instance] nonceCrypto

theorem nonce_hash (h : BlockHeader) : h.hash = BitVec.ofNat 256 (h.nonce.toNat + 1) := by
  have hdrop : h.write.drop 144 = leBytes 8 h.nonce.toNat := by
    rw [BlockHeader.write]
    exact List.drop_left' (by simp [Writer.u32le, Writer.u64le, Writer.hash])
  show BitVec.ofNat 256 (ofLeBytes (h.write.drop 144) + 1) = _
  have hpow : (256 : Nat) ^ 8 = 2 ^ 64 := by decide
  rw [hdrop, ofLeBytes_leBytes, hpow, Nat.mod_eq_of_lt h.nonce.toNat_lt]

def lineHash (h : Nat) : Hash256 := BitVec.ofNat 256 (h + 1)

/-- Header after header on top of genesis. -/
def lineHeader : Nat → BlockHeader
  | 0 => regtestGenesis.header
  | h + 1 =>
      { prev := lineHash h, time := 1790121600 + UInt64.ofNat (h + 1)
        bits := (limitBelow 255).toCompact, nonce := UInt64.ofNat (h + 1) }

theorem lineHeader_hash {h : Nat} (hh : h < 2 ^ 64) : (lineHeader h).hash = lineHash h := by
  rw [nonce_hash]
  cases h with
  | zero => rfl
  | succ h =>
      show BitVec.ofNat 256 ((UInt64.ofNat (h + 1)).toNat + 1) = _
      rw [UInt64.toNat_ofNat', Nat.mod_eq_of_lt hh]
      rfl

theorem lineHash_inj {h k : Nat} (hh : h < 2 ^ 64) (hk : k < 2 ^ 64)
    (he : lineHash h = lineHash k) : h = k := by
  have hn := congrArg BitVec.toNat he
  rw [lineHash, lineHash, BitVec.toNat_ofNat, BitVec.toNat_ofNat, Nat.mod_eq_of_lt (by omega),
    Nat.mod_eq_of_lt (by omega)] at hn
  omega

/-- A node with `n` headers above genesis, which is all of its active chain. -/
def lineNode : Nat → Chainstate
  | 0 => { ({} : Chainstate).addIndex (lineHeader 0) with chain := [lineHash 0] }
  | n + 1 => (lineNode n).addIndex (lineHeader (n + 1))

structure Line (s : Chainstate) (n : Nat) : Prop where
  rooted : s.Rooted (lineHash 0)
  mem : ∀ x, (s.node x).isSome ↔ ∃ h, h ≤ n ∧ x = lineHash h
  header : ∀ h, h ≤ n → ∃ m, s.node (lineHash h) = some m ∧ m.header = lineHeader h

theorem grow_isSome {t : Nodes} {p : Hash256} (hp : (t p).isSome) (nb : Node) (x : Hash256) :
    (t.grow p nb x).isSome ↔ x = nb.hash ∨ (t x).isSome := by
  rw [Nodes.grow]
  split
  · next h => simp [h]
  · next h =>
      split
      · next hx =>
          subst hx
          simp [hp]
      · simp [h]

theorem lineNode_line {n : Nat} (hn : n < 2 ^ 63) : (lineNode n).Line n := by
  induction n with
  | zero =>
      have hempty : ∀ x, ({} : Chainstate).lookup x = none := fun x => AList.lookup_empty x
      have hhash : (lineHeader 0).hash = lineHash 0 := lineHeader_hash (by decide)
      have hw := addIndex_first hempty (lineHeader 0)
      have hnode : (lineNode 0).node = fun x => if x = lineHash 0 then
          some (({} : Chainstate).newEntry (lineHeader 0)).node else none := by
        rw [← hhash]
        exact addIndex_first_node hempty (lineHeader 0)
      have hentry : (({} : Chainstate).newEntry (lineHeader 0)).node.header = lineHeader 0 := by
        rw [newEntry, hempty]
        rfl
      rw [hhash] at hw
      refine ⟨⟨hw, path_singleton _, rfl⟩, fun x => ?_, fun h hh => ?_⟩
      · rw [hnode]
        simp only []
        split
        · next hx => exact ⟨fun _ => ⟨0, Nat.le_refl 0, hx⟩, fun _ => rfl⟩
        · next hx =>
            constructor
            · intro hs
              cases hs
            · rintro ⟨h, hh, rfl⟩
              obtain rfl := Nat.le_zero.mp hh
              exact absurd rfl hx
      · obtain rfl := Nat.le_zero.mp hh
        exact ⟨_, (congrFun hnode _).trans (if_pos rfl), hentry⟩
  | succ n ih =>
      have hline := ih (by omega)
      have hhash : (lineHeader (n + 1)).hash = lineHash (n + 1) := lineHeader_hash (by omega)
      have hp : (lineHeader (n + 1)).prev ∈ (lineNode n).index :=
        node_isSome.mp ((hline.mem _).mpr ⟨n, Nat.le_refl n, rfl⟩)
      have hnew : (lineHeader (n + 1)).hash ∉ (lineNode n).index := by
        intro hm
        obtain ⟨h, hh, he⟩ := (hline.mem _).mp (node_isSome.mpr hm)
        rw [hhash] at he
        have := lineHash_inj (by omega) (by omega) he
        omega
      obtain ⟨hr, hext, -⟩ := hline.rooted.addIndex hp hnew
      have hnode := addIndex_node hp
      have hnb : ((lineNode n).newEntry (lineHeader (n + 1))).node.hash = lineHash (n + 1) :=
        (newEntry_hash _ _).trans hhash
      refine ⟨hr, fun x => ?_, fun h hh => ?_⟩
      · show (((lineNode n).addIndex (lineHeader (n + 1))).node x).isSome ↔ _
        rw [hnode, grow_isSome (node_isSome.mpr hp), hnb, hline.mem]
        constructor
        · rintro (rfl | ⟨h, hh, rfl⟩)
          · exact ⟨n + 1, Nat.le_refl _, rfl⟩
          · exact ⟨h, by omega, rfl⟩
        · rintro ⟨h, hh, rfl⟩
          rcases Nat.eq_or_lt_of_le hh with rfl | hlt
          · exact .inl rfl
          · exact .inr ⟨h, by omega, rfl⟩
      · rcases Nat.eq_or_lt_of_le hh with rfl | hlt
        · refine ⟨((lineNode n).newEntry (lineHeader (n + 1))).node, ?_, ?_⟩
          · show ((lineNode n).addIndex (lineHeader (n + 1))).node _ = _
            rw [hnode, ← hnb, Nodes.grow_self]
          · rw [newEntry]
            split <;> rfl
        · obtain ⟨m, hm, hmh⟩ := hline.header h (by omega)
          obtain ⟨l, hl⟩ := hext _ m hm
          exact ⟨_, hl, hmh⟩

namespace Line

variable {s : Chainstate} {n : Nat}

/-- Down the line, one header at a time. -/
theorem parent (hl : s.Line n) (hn : n < 2 ^ 63) {h : Nat} (hh : h + 1 ≤ n) :
    Nodes.parent s.node (lineHash (h + 1)) = some (lineHash h) := by
  obtain ⟨m, hm, hmh⟩ := hl.header (h + 1) hh
  rw [Nodes.parent_eq hm]
  cases hp : m.prev with
  | none =>
      have := lineHash_inj (by omega) (by omega) (hl.rooted.tree.root _ m hm hp).1
      omega
  | some p =>
      have hprev := (hl.rooted.tree.parent _ m p hm hp).1
      rw [hmh] at hprev
      rw [← hprev]
      rfl

theorem height (hl : s.Line n) (hn : n < 2 ^ 63) {h : Nat} (hh : h ≤ n) :
    Nodes.height s.node (lineHash h) = h := by
  induction h with
  | zero => exact hl.rooted.tree.height_genesis
  | succ h ih => rw [hl.rooted.tree.ranked _ _ (hl.parent hn hh), ih (by omega)]

theorem branchAt (hl : s.Line n) (hn : n < 2 ^ 63) {k : Nat} (hk : k ≤ n) :
    s.branchAt (lineHash n) k = some (lineHash k) := by
  have hup : ∀ d, d ≤ n → up (Nodes.parent s.node) d (lineHash n) = some (lineHash (n - d)) := by
    intro d hd
    induction d with
    | zero => rfl
    | succ d ih =>
        have hsub : n - d = n - (d + 1) + 1 := by omega
        rw [up_succ, ih (by omega), Option.bind_some, hsub, hl.parent hn (by omega)]
  rw [Chainstate.branchAt, hl.height hn (Nat.le_refl n), hup _ (by omega)]
  congr 2
  omega

end Line

/-- The header of another branch, on top of the line's `a`. -/
def forkHeader (a : Nat) : BlockHeader where
  prev := lineHash a
  time := 1790121600 + UInt64.ofNat (a + 1)
  bits := (limitBelow 255).toCompact
  nonce := 9223372036854775808

def forkHash : Hash256 := BitVec.ofNat 256 9223372036854775809

/-- A peer whose active chain is the line up to height `a` and one block more. -/
def forkNode (a : Nat) : Chainstate :=
  { (lineNode a).addIndex (forkHeader a) with
    chain := (List.range (a + 1)).map lineHash ++ [forkHash] }

/-- A node whose best header is the last of the line. -/
def lineTop (n : Nat) : Chainstate := { lineNode n with bestHeader := some (lineHash n) }

theorem lineTop_line {n : Nat} (hn : n < 2 ^ 63) : (lineTop n).Line n :=
  ⟨⟨(lineNode_line hn).rooted.tree, (lineNode_line hn).rooted.chain⟩, (lineNode_line hn).mem,
    (lineNode_line hn).header⟩

theorem forkHeader_hash (a : Nat) : (forkHeader a).hash = forkHash := by
  have hn : (forkHeader a).nonce.toNat = 9223372036854775808 := by
    show (9223372036854775808 : UInt64).toNat = _
    decide
  rw [nonce_hash, hn, forkHash]

theorem forkHash_ne {h : Nat} (hh : h < 2 ^ 63) : forkHash ≠ lineHash h := by
  intro he
  have hn := congrArg BitVec.toNat he
  rw [forkHash, lineHash, BitVec.toNat_ofNat, BitVec.toNat_ofNat, Nat.mod_eq_of_lt (by decide),
    Nat.mod_eq_of_lt (by omega)] at hn
  omega

/-- The peer's tree, and where its blocks come from. -/
structure ForkSpec (t : Chainstate) (a : Nat) : Prop where
  rooted : t.Rooted (lineHash 0)
  node : ∀ x m, t.node x = some m →
    (x = forkHash ∧ m.header = forkHeader a) ∨ ∃ h, h ≤ a ∧ x = lineHash h ∧
      m.header = lineHeader h

theorem forkNode_spec {a : Nat} (ha : a < 2 ^ 62) : ForkSpec (forkNode a) a := by
  have hline := lineNode_line (n := a) (by omega)
  have hp : (forkHeader a).prev ∈ (lineNode a).index :=
    node_isSome.mp ((hline.mem _).mpr ⟨a, Nat.le_refl a, rfl⟩)
  have hnew : (forkHeader a).hash ∉ (lineNode a).index := by
    intro hm
    obtain ⟨h, hh, he⟩ := (hline.mem _).mp (node_isSome.mpr hm)
    rw [forkHeader_hash] at he
    exact forkHash_ne (by omega) he
  obtain ⟨hr, hext, -⟩ := hline.rooted.addIndex hp hnew
  have hnode := addIndex_node hp
  have hnb : ((lineNode a).newEntry (forkHeader a)).node.hash = forkHash :=
    (newEntry_hash _ _).trans (forkHeader_hash a)
  have hentry : ((lineNode a).newEntry (forkHeader a)).node.header = forkHeader a := by
    rw [newEntry]
    split <;> rfl
  refine ⟨⟨hr.tree, ?_, ?_⟩, fun x m hm => ?_⟩
  · -- Along the line, and from its last block to the new one.
    have hlast : Nodes.parent (forkNode a).node forkHash = some (lineHash a) := by
      have hself : (forkNode a).node forkHash =
          some ((lineNode a).newEntry (forkHeader a)).node := by
        show ((lineNode a).addIndex (forkHeader a)).node forkHash = _
        rw [hnode, ← hnb, Nodes.grow_self]
      have hprev : ((lineNode a).newEntry (forkHeader a)).prev = some (lineHash a) := by
        obtain ⟨q, hq⟩ := mem_iff_exists.mp hp
        rw [newEntry, lookup, hq]
        rfl
      rw [Nodes.parent_eq hself]
      exact hprev
    refine List.isChain_append.mpr ⟨?_, List.IsChain.singleton _, ?_⟩
    · refine List.isChain_iff_getElem.mpr fun i hi => ?_
      rw [List.length_map, List.length_range] at hi
      simp only [List.getElem_map, List.getElem_range]
      have hs : ((lineNode a).node (lineHash (i + 1))).isSome :=
        (hline.mem _).mpr ⟨i + 1, by omega, rfl⟩
      have hpar := hline.parent (by omega) (h := i) (by omega)
      rw [← hext.parent hs] at hpar
      exact hpar
    · intro x hx y hy
      rw [List.getLast?_map, List.getLast?_range] at hx
      simp only [Nat.add_one_ne_zero, if_false, Nat.add_sub_cancel, Option.map_some,
        Option.mem_some_iff] at hx
      simp only [List.head?_cons, Option.mem_some_iff] at hy
      rw [← hx, ← hy]
      exact hlast
  · show ((List.range (a + 1)).map lineHash ++ [forkHash]).head? = _
    rw [List.range_succ_eq_map]
    rfl
  · have hm' : Nodes.grow (lineNode a).node (forkHeader a).prev
        ((lineNode a).newEntry (forkHeader a)).node x = some m := by
      rw [← hnode]
      exact hm
    rcases Nodes.grow_cases hm' with ⟨hx, rfl⟩ | ⟨q, hq, rfl⟩
    · exact .inl ⟨hx.trans hnb, hentry⟩
    · obtain ⟨h, hh, rfl⟩ := (hline.mem x).mp (by rw [hq]; rfl)
      obtain ⟨q', hq', hqh⟩ := hline.header h hh
      rw [hq] at hq'
      cases hq'
      exact .inr ⟨h, hh, rfl, hqh⟩

theorem sameBlocks_fork {n a : Nat} (hn : n < 2 ^ 62) (ha : a < 2 ^ 62) :
    SameBlocks (lineTop n) (forkNode a) := by
  intro x p q hp hq
  have hline := lineTop_line (n := n) (by omega)
  obtain ⟨h, hh, rfl⟩ := (hline.mem x).mp (by rw [hp]; rfl)
  obtain ⟨p', hp', hph⟩ := hline.header h hh
  rw [hp] at hp'
  cases hp'
  rcases (forkNode_spec ha).node _ q hq with ⟨hx, -⟩ | ⟨k, hk, hx, hqh⟩
  · exact absurd hx.symm (forkHash_ne (by omega))
  · rw [lineHash_inj (by omega) (by omega) hx] at hph
    rw [hph, hqh]

/-- The one block the node lacks is on top of the shared part. -/
theorem firstUnknown_fork {n a : Nat} (hn : n < 2 ^ 62) (ha : a ≤ n) :
    FirstUnknown (lineTop n) (forkNode a) (a + 1) := by
  have hline := lineTop_line (n := n) (by omega)
  constructor
  · refine ⟨forkHash, ?_, fun hm => ?_⟩
    · show ((List.range (a + 1)).map lineHash ++ [forkHash])[a + 1]? = _
      rw [List.getElem?_append_right (by simp)]
      simp
    · obtain ⟨h, hh, he⟩ := (hline.mem _).mp (node_isSome.mpr hm)
      exact forkHash_ne (by omega) he
  · intro i y hi hy
    have hget : ((List.range (a + 1)).map lineHash ++ [forkHash])[i]? = some (lineHash i) := by
      rw [List.getElem?_append_left (by simpa using hi)]
      simp [List.getElem?_range hi]
    have hyi : y = lineHash i := Option.some.inj (hy.symm.trans hget)
    rw [hyi]
    exact node_isSome.mp ((hline.mem _).mpr ⟨i, by omega, rfl⟩)

/-- The node is at height 1 of its own branch, and learns of the other one. -/
theorem headers_reply_progress_fork :
    ∃ payload headers, (forkNode 0).serveGetHeaders (lineTop 1).getHeadersRequest =
        .ok (payload, []) ∧ readHeaders payload = .ok (headers, []) ∧
      ∃ hd ∈ headers, hd.hash ∉ (lineTop 1).index := by
  have hline := lineTop_line (n := 1) (by decide)
  have hspec := forkNode_spec (a := 0) (by decide)
  obtain ⟨payload, headers, hp, hh, hiff⟩ := headers_reply_progress hline.rooted hspec.rooted
    (sameBlocks_fork (by decide) (by decide)) rfl
    (node_isSome.mp ((hline.mem _).mpr ⟨1, Nat.le_refl 1, rfl⟩))
    (by rw [hline.height (by decide) (Nat.le_refl 1)]; decide)
    (firstUnknown_fork (n := 1) (a := 0) (by decide) (by decide))
  refine ⟨payload, headers, hp, hh, hiff.mpr ⟨1, lineHash 0, ?_, ?_, ?_, ?_⟩⟩
  · rw [hline.height (by decide) (Nat.le_refl 1)]
    exact hline.branchAt (by decide) (Nat.zero_le 1)
  · exact List.mem_append_left _ (List.mem_map.mpr ⟨0, by simp, rfl⟩)
  · exact (Nat.le_add_left _ _).trans' (by decide)
  · intro i h₁ h₂
    omega

/-- The node's best header is 2058 above the last block it shares with the
peer, and every header of the answer is one it has. -/
theorem headers_reply_stalls :
    (lineTop 4105).Rooted (lineHash 0) ∧ (forkNode 2047).Rooted (lineHash 0) ∧
      SameBlocks (lineTop 4105) (forkNode 2047) ∧
      (lineTop 4105).bestHeader = some (lineHash 4105) ∧
      lineHash 2047 ∈ (forkNode 2047).chain ∧ 4105 - 2047 ≤ maxReorgDepth ∧
      (∃ x ∈ (forkNode 2047).chain, x ∉ (lineTop 4105).index) ∧
      ¬ ∃ hd ∈ (forkNode 2047).headersReply
        ((lineTop 4105).locator (lineTop 4105).bestHeader) 0, hd.hash ∉ (lineTop 4105).index := by
  have hline := lineTop_line (n := 4105) (by decide)
  have hspec := forkNode_spec (a := 2047) (by decide)
  have hsame := sameBlocks_fork (n := 4105) (a := 2047) (by decide) (by decide)
  have hu := firstUnknown_fork (n := 4105) (a := 2047) (by decide) (by decide)
  obtain ⟨x, hx, hxs⟩ := hu.lacks
  refine ⟨hline.rooted, hspec.rooted, hsame, rfl, ?_, by decide,
    ⟨x, List.mem_of_getElem? hx, hxs⟩, fun hd => ?_⟩
  · exact List.mem_append_left _ (List.mem_map.mpr ⟨2047, by simp, rfl⟩)
  obtain ⟨j, y, hy, hyt, hle, -⟩ := (headersReply_iff hline.rooted hspec.rooted hsame
    ((hline.mem _).mpr ⟨4105, Nat.le_refl _, rfl⟩) hu).mp hd
  rw [hline.height (by decide) (Nat.le_refl 4105)] at hy hle
  rw [hline.branchAt (by decide) (Nat.sub_le _ _)] at hy
  have hmax : maxHeadersPerMsg = 2000 := rfl
  -- The locator has an entry at 2048, and the next one is genesis.
  have hlow : 4105 - locatorOffset j ≤ 2047 := by
    cases hy
    rcases List.mem_append.mp hyt with hm | hm
    · obtain ⟨h, hh, he⟩ := List.mem_map.mp hm
      rw [List.mem_range] at hh
      have := lineHash_inj (by omega) (by omega) he
      omega
    · exact absurd (List.mem_singleton.mp hm).symm (forkHash_ne (by omega))
  by_cases hj : j ≤ 21
  · have hoff : locatorOffset 21 = 2057 := by decide
    have := locatorOffset_mono hj
    omega
  · have hoff : locatorOffset 22 = 4105 := by decide
    have := locatorOffset_mono (by omega : 22 ≤ j)
    omega

end QuantCore.Chainstate
