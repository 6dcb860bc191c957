import QuantCore.Lib.Median
import QuantCore.Proofs.Ancestor
import QuantCore.Proofs.HeaderRules
import QuantCore.Proofs.Steps

/-!
# Median time past

A header is accepted only above the median of the up to eleven times before it.
Those times stay what they are while the tree grows, so in a tree of accepted
headers every block is above the median it was checked against; the window of
the next median takes that block in and drops at most its oldest time, and so
the median never runs backwards.
-/

namespace QuantCore

open Forest

namespace Chainstate

/-- The time `create_block_template` puts into a header on `tip`. -/
def templateTime (s : Chainstate) (tip : Hash256) (now : Int) : UInt64 :=
  UInt64.ofInt (max now (s.medianTimePast tip + 1))

theorem neg_le_int64 (t : UInt64) : -2 ^ 63 ≤ int64 t := BitVec.le_toInt t.toBitVec

theorem int64_ofInt {x : Int} (h : -2 ^ 63 ≤ x) (h' : x < 2 ^ 63) :
    int64 (UInt64.ofInt x) = x := by
  have hval : (UInt64.ofInt x).toNat = (x % 2 ^ 64).toNat := by
    rw [UInt64.ofInt, UInt64.toNat_ofNat']
    omega
  rw [int64, BitVec.toInt_eq_toNat_cond, UInt64.toNat_toBitVec, hval]
  split <;> omega

/-! ## Windows of times -/

theorem medianTimePast_eq (s : Chainstate) (b : Hash256) :
    s.medianTimePast b = Median.upper 0 (s.timesBack medianTimeSpan (some b)) := by
  rw [medianTimePast, Median.upper, List.length_insertionSort]

theorem timesBack_succ (s : Chainstate) (k : Nat) (b : Hash256) :
    s.timesBack (k + 1) (some b) =
      int64 (s.entry b).header.time :: s.timesBack k (s.entry b).prev := rfl

theorem timesBack_length_le (s : Chainstate) (k : Nat) (b : Option Hash256) :
    (s.timesBack k b).length ≤ k := by
  induction k generalizing b with
  | zero => exact Nat.le_refl 0
  | succ k ih =>
      cases b with
      | none => exact Nat.zero_le _
      | some b =>
          rw [timesBack_succ, List.length_cons]
          exact Nat.succ_le_succ (ih _)

theorem timesBack_take (s : Chainstate) (k : Nat) (b : Option Hash256) :
    s.timesBack k b = (s.timesBack (k + 1) b).take k := by
  induction k generalizing b with
  | zero => rfl
  | succ k ih =>
      cases b with
      | none => rfl
      | some b => rw [timesBack_succ, timesBack_succ, List.take_succ_cons, ← ih]

variable [Crypto] {s s' : Chainstate} {g : Hash256}

/-- A time of the window is the time of a block of the tree. -/
theorem mem_timesBack (hw : Nodes.Wf g s.node s.nextSeq) {k : Nat} {b : Hash256}
    (hb : b ∈ s.index) {t : Int} (ht : t ∈ s.timesBack k (some b)) :
    ∃ x ∈ s.index, t = int64 (s.entry x).header.time := by
  induction k generalizing b with
  | zero => cases ht
  | succ k ih =>
      rw [timesBack_succ] at ht
      rcases List.mem_cons.mp ht with rfl | ht
      · exact ⟨b, hb, rfl⟩
      · obtain ⟨n, hn⟩ := Option.isSome_iff_exists.mp (node_isSome.mpr hb)
        rw [entry_prev, Nodes.parent_eq hn] at ht
        cases hp : n.prev with
        | none =>
            rw [hp] at ht
            cases k <;> cases ht
        | some p =>
            rw [hp] at ht
            obtain ⟨-, q, hq, -⟩ := hw.parent b n p hn hp
            exact ih (node_isSome.mp (by rw [hq]; rfl)) ht

omit [Crypto] in
/-- The header of a block stays when the tree grows. -/
theorem entry_header_extends (hext : Nodes.Extends s.node s'.node) {b : Hash256}
    (hb : b ∈ s.index) : (s'.entry b).header = (s.entry b).header := by
  obtain ⟨n, hn⟩ := Option.isSome_iff_exists.mp (node_isSome.mpr hb)
  obtain ⟨l, hl⟩ := hext b n hn
  have h := congrArg Node.header (entry_node hn)
  have h' := congrArg Node.header (entry_node hl)
  exact h'.trans h.symm

/-- So do the times below it. -/
theorem timesBack_extends (hw : Nodes.Wf g s.node s.nextSeq)
    (hext : Nodes.Extends s.node s'.node) (k : Nat) {b : Hash256} (hb : b ∈ s.index) :
    s'.timesBack k (some b) = s.timesBack k (some b) := by
  induction k generalizing b with
  | zero => rfl
  | succ k ih =>
      have hsome := node_isSome.mpr hb
      obtain ⟨n, hn⟩ := Option.isSome_iff_exists.mp hsome
      rw [timesBack_succ, timesBack_succ, entry_header_extends hext hb, entry_prev, entry_prev,
        hext.parent hsome, Nodes.parent_eq hn]
      cases hp : n.prev with
      | none => cases k <;> rfl
      | some p =>
          obtain ⟨-, q, hq, -⟩ := hw.parent b n p hn hp
          rw [ih (node_isSome.mp (by rw [hq]; rfl))]

theorem medianTimePast_extends (hw : Nodes.Wf g s.node s.nextSeq)
    (hext : Nodes.Extends s.node s'.node) {b : Hash256} (hb : b ∈ s.index) :
    s'.medianTimePast b = s.medianTimePast b := by
  rw [medianTimePast_eq, medianTimePast_eq, timesBack_extends hw hext _ hb]

/-- The median is one of the times. -/
theorem medianTimePast_mem (hw : Nodes.Wf g s.node s.nextSeq) {b : Hash256}
    (hb : b ∈ s.index) : ∃ x ∈ s.index, s.medianTimePast b = int64 (s.entry x).header.time := by
  rw [medianTimePast_eq]
  exact mem_timesBack hw hb (Median.upper_mem (List.cons_ne_nil _ _))

omit [Crypto] in
/-- A block above its parent's median has a median no lower. -/
theorem medianTimePast_le_child {b p : Hash256} (hp : (s.entry b).prev = some p)
    (ht : s.medianTimePast p ≤ int64 (s.entry b).header.time) :
    s.medianTimePast p ≤ s.medianTimePast b := by
  rw [medianTimePast_eq] at ht
  rw [medianTimePast_eq, medianTimePast_eq s b, medianTimeSpan, timesBack_succ s 10 b, hp,
    timesBack_take s 10 (some p)]
  exact Median.upper_le_slide (List.cons_ne_nil _ _) (timesBack_length_le s 11 _) ht

/-! ## Trees of accepted headers -/

/-- The trees `accept_header` grows from a network's genesis while the clock
reads at most `latest`. Whatever else happens between two headers leaves the
tree alone and moves the active chain to some path from genesis. -/
inductive HeaderTree (net : Network) (latest : Int) : Chainstate → Prop
  | genesis {s : Chainstate} (hempty : ∀ x, s.lookup x = none) (hchain : s.chain = []) :
      HeaderTree net latest (s.addIndex (paramsFor net).genesis.header)
  | accept {s s' : Chainstate} {cfg : Config} {h : BlockHeader} {r : HeaderResult}
      (hs : HeaderTree net latest s) (hnet : cfg.network = net)
      (hclock : cfg.env.clock s.tick ≤ latest) (hr : s.acceptHeader cfg h = (s', r)) :
      HeaderTree net latest s'
  | between {s s' : Chainstate} (hs : HeaderTree net latest s) (hnode : s'.node = s.node)
      (hseq : s'.nextSeq = s.nextSeq) (hc : s'.RootPath s'.chain) : HeaderTree net latest s'

/-- No time above `bound`, and every block above the median before it. -/
structure TimesRise (s : Chainstate) (bound : Int) : Prop where
  le_bound : ∀ b ∈ s.index, int64 (s.entry b).header.time ≤ bound
  above : ∀ b ∈ s.index, ∀ p, (s.entry b).prev = some p →
    s.medianTimePast p < int64 (s.entry b).header.time

/-- Only the blocks that are new have to be looked at. -/
theorem TimesRise.extends {bound : Int} (h : s.TimesRise bound)
    (hw : Nodes.Wf g s.node s.nextSeq) (hext : Nodes.Extends s.node s'.node)
    (hnew : ∀ b ∈ s'.index, b ∉ s.index → int64 (s'.entry b).header.time ≤ bound ∧
      ∀ p, (s'.entry b).prev = some p → p ∈ s.index ∧
        s.medianTimePast p < int64 (s'.entry b).header.time) : s'.TimesRise bound where
  le_bound b hb := by
    by_cases hold : b ∈ s.index
    · rw [entry_header_extends hext hold]
      exact h.le_bound b hold
    · exact (hnew b hb hold).1
  above b hb p hp := by
    by_cases hold : b ∈ s.index
    · have hsome := node_isSome.mpr hold
      rw [entry_prev, hext.parent hsome, ← entry_prev] at hp
      obtain ⟨n, hn⟩ := Option.isSome_iff_exists.mp hsome
      have hnp : n.prev = some p := by rw [← Nodes.parent_eq hn, ← entry_prev, hp]
      obtain ⟨-, q, hq, -⟩ := hw.parent b n p hn hnp
      rw [entry_header_extends hext hold,
        medianTimePast_extends hw hext (node_isSome.mp (by rw [hq]; rfl))]
      exact h.above b hold p hp
    · obtain ⟨hpold, hlt⟩ := (hnew b hb hold).2 p hp
      rw [medianTimePast_extends hw hext hpold]
      exact hlt

/-- A state with the same nodes. -/
theorem TimesRise.of_node {bound : Int} (h : s.TimesRise bound)
    (hw : Nodes.Wf g s.node s.nextSeq) (hnode : s'.node = s.node) : s'.TimesRise bound := by
  refine h.extends hw (by rw [hnode]; exact .refl _) fun b hb hold => ?_
  rw [← node_isSome, hnode, node_isSome] at hb
  exact absurd hb hold

/-- The two time rules of an accepted header. -/
theorem checkHeader_times {cfg : Config} {h : BlockHeader} {p : Hash256}
    (hc : s.checkHeader cfg h p = .ok ()) :
    s.medianTimePast p < int64 h.time ∧ int64 h.time ≤ cfg.env.clock s.tick + maxFutureDrift := by
  rw [checkHeader] at hc
  split at hc
  · cases hc
  split at hc
  · cases hc
  split at hc
  · cases hc
  split at hc
  · cases hc
  split at hc
  · cases hc
  split at hc
  · cases hc
  next hold =>
    split at hc
    · cases hc
    next hfuture => exact ⟨by omega, by omega⟩

/-- A header under both rules, added to a known block. -/
theorem TimesRise.addIndex {h : BlockHeader} {bound : Int} (hrise : s.TimesRise bound)
    (hw : Nodes.Wf g s.node s.nextSeq) (hc : s.ChainReady g) (hp : h.prev ∈ s.index)
    (hnew : h.hash ∉ s.index) (hold : s.medianTimePast h.prev < int64 h.time)
    (hfuture : int64 h.time ≤ bound) :
    Nodes.Wf g (s.addIndex h).node (s.addIndex h).nextSeq ∧ (s.addIndex h).ChainReady g ∧
      (s.addIndex h).TimesRise bound := by
  obtain ⟨hw', hext⟩ := addIndex_wf hw hc hp hnew
  have hchain : (s.addIndex h).chain = s.chain := by rw [addIndex_eq]
  refine ⟨hw', ?_, hrise.extends hw hext fun b hb hbold => ?_⟩
  · rw [ChainReady, hchain]
    exact hc.imp id fun hc => ⟨hext.path hc.path, hc.head⟩
  · obtain ⟨n, hn⟩ := Option.isSome_iff_exists.mp (node_isSome.mpr hb)
    rw [addIndex_node hp] at hn
    rcases Nodes.grow_cases hn with ⟨hbh, -⟩ | ⟨m, hm, -⟩
    · have hbh' : b = h.hash := hbh.trans (newEntry_hash s h)
      obtain ⟨q, hq⟩ := Option.isSome_iff_exists.mp (AList.lookup_isSome.mpr hp)
      have hentry : (s.newEntry h).header = h ∧ (s.newEntry h).prev = some h.prev := by
        rw [newEntry, show s.lookup h.prev = some q from hq]
        exact ⟨rfl, rfl⟩
      have hlookup := addIndex_lookup s h b
      rw [if_pos hbh'] at hlookup
      have hb' : (s.addIndex h).entry b = s.newEntry h := by
        rw [entry, show (s.addIndex h).index.lookup b = _ from hlookup]
        rfl
      rw [hb', hentry.1, hentry.2]
      refine ⟨hfuture, fun p hpe => ?_⟩
      cases hpe
      exact ⟨hp, hold⟩
    · exact absurd (node_isSome.mp (Option.isSome_of_eq_some hm)) hbold

/-- What a tree of accepted headers keeps. -/
theorem HeaderTree.rise {net : Network} {latest : Int} (hs : HeaderTree net latest s) :
    ∃ g, Nodes.Wf g s.node s.nextSeq ∧ s.ChainReady g ∧
      s.TimesRise (max (latest + maxFutureDrift)
        (int64 (paramsFor net).genesis.header.time)) := by
  induction hs with
  | @genesis s hempty hchain =>
      generalize (paramsFor net).genesis.header = gen
      have hnode := addIndex_first_node hempty gen
      have honly : ∀ b ∈ (s.addIndex gen).index, b = gen.hash := by
        intro b hb
        by_contra hne
        have hat := congrFun hnode b
        rw [if_neg hne] at hat
        rw [← node_isSome, hat] at hb
        cases hb
      have hself : (s.addIndex gen).node gen.hash = some (s.newEntry gen).node := by
        have hat := congrFun hnode gen.hash
        rwa [if_pos rfl] at hat
      have hentry : (s.newEntry gen).header = gen ∧ (s.newEntry gen).prev = none := by
        rw [newEntry, hempty]
        exact ⟨rfl, rfl⟩
      refine ⟨gen.hash, addIndex_first hempty gen, .inl (by rw [addIndex_eq]; exact hchain),
        ?_, ?_⟩
      · intro b hb
        obtain rfl := honly b hb
        have hheader : ((s.addIndex gen).entry gen.hash).header = gen :=
          (congrArg Node.header (entry_node hself)).trans hentry.1
        rw [hheader]
        exact Int.le_max_right ..
      · intro b hb p hp
        obtain rfl := honly b hb
        have hnone : (s.newEntry gen).node.prev = none := hentry.2
        rw [entry_prev, Nodes.parent_eq hself, hnone] at hp
        cases hp
  | @accept s s' cfg h r _ hnet hclock hr ih =>
      obtain ⟨g, hw, hc, hrise⟩ := ih
      rcases acceptHeader_cases hr with ⟨rfl, -⟩ | ⟨-, hnew, hp, hcheck, rfl⟩
      · exact ⟨g, hw, hc, hrise.of_node hw rfl⟩
      · obtain ⟨hold, hfuture⟩ := checkHeader_times hcheck
        have hsame : Nodes.Extends s.node s.ticked.node := .refl _
        have hmedian : s.ticked.medianTimePast h.prev = s.medianTimePast h.prev :=
          medianTimePast_extends hw hsame hp
        have hticked : s.ticked.TimesRise _ := hrise.of_node hw rfl
        obtain ⟨hw', hc', hrise'⟩ := hticked.addIndex (h := h) hw hc hp hnew
          (by rw [hmedian]; exact hold) (by omega)
        exact ⟨g, hw', hc', hrise'.of_node hw' rfl⟩
  | @between s s' _ hnode hseq hc ih =>
      obtain ⟨g, hw, -, hrise⟩ := ih
      have hrise' := hrise.of_node hw hnode
      rw [← hnode, ← hseq] at hw
      exact ⟨g, hw, hc.ready hw, hrise'⟩

/-- The genesis blocks were timed long before the seconds run out. -/
theorem genesis_time_lt (net : Network) : int64 (paramsFor net).genesis.header.time < 2 ^ 62 := by
  cases net with
  | main =>
      show int64 1790000000 < 2 ^ 62
      decide
  | test =>
      show int64 1792800000 < 2 ^ 62
      decide
  | regtest =>
      show int64 1790121600 < 2 ^ 62
      decide

/-- In a tree of accepted headers every block but genesis is above its parent's
median, its own median is no lower than that, and a template's time on it is
above its own. -/
theorem median_time_rises {net : Network} {latest : Int} (hs : HeaderTree net latest s)
    {b : Hash256} (hb : b ∈ s.index) :
    (∀ p, (s.entry b).prev = some p →
      s.medianTimePast p ≤ s.medianTimePast b ∧
        s.medianTimePast p < int64 (s.entry b).header.time) ∧
    (latest < 2 ^ 62 → ∀ now ≤ latest, s.medianTimePast b < int64 (s.templateTime b now)) := by
  obtain ⟨g, hw, -, hrise⟩ := hs.rise
  refine ⟨fun p hp => ?_, fun hlatest now hnow => ?_⟩
  · have habove := hrise.above b hb p hp
    exact ⟨medianTimePast_le_child hp (by omega), habove⟩
  · -- The median is a time of the tree, and so the sum stays in 64 bits.
    obtain ⟨x, hx, hmedian⟩ := medianTimePast_mem hw hb
    have hbound := hrise.le_bound x hx
    have hlow := neg_le_int64 (s.entry x).header.time
    have hgen := genesis_time_lt net
    rw [maxFutureDrift] at hbound
    rw [templateTime, int64_ofInt (by omega) (by omega)]
    omega

/-- A regtest node that has only its genesis. -/
def regtestTree : Chainstate :=
  { ({} : Chainstate).addIndex (paramsFor .regtest).genesis.header with
    chain := [(paramsFor .regtest).genesis.header.hash] }

theorem regtestTree_headers : HeaderTree .regtest 1790121700 regtestTree := by
  have hempty : ∀ x, ({} : Chainstate).lookup x = none := fun x => AList.lookup_empty x
  refine .between (.genesis hempty rfl) rfl rfl ⟨path_singleton _, ?_⟩
  intro g hg
  cases hg
  have hnode := congrFun (addIndex_first_node hempty (paramsFor .regtest).genesis.header)
    (paramsFor .regtest).genesis.header.hash
  rw [if_pos rfl] at hnode
  refine ⟨node_isSome.mp (Option.isSome_of_eq_some hnode), ?_⟩
  have hprev : (({} : Chainstate).newEntry (paramsFor .regtest).genesis.header).prev = none := by
    rw [newEntry, hempty]
  have hparent := Nodes.parent_eq hnode
  rw [entry_prev]
  exact hparent.trans hprev

omit [Crypto] in
/-- The first header after genesis. -/
theorem median_time_rises_first :
    letI := nonceCrypto
    (regtestTree.acceptHeader regtestConfig (nextHeader 2)).1.medianTimePast
        regtestGenesis.header.hash ≤
      (regtestTree.acceptHeader regtestConfig (nextHeader 2)).1.medianTimePast
        (nextHeader 2).hash := by
  let _ := nonceCrypto
  have hnet : regtestConfig.network = .regtest := rfl
  have hclock : regtestConfig.env.clock regtestTree.tick ≤ 1790121700 := Int.le_refl _
  have htree := regtestTree_headers.accept hnet hclock
    (Prod.eta (regtestTree.acceptHeader regtestConfig (nextHeader 2))).symm
  have hmem : (nextHeader 2).hash ∈
      (regtestTree.acceptHeader regtestConfig (nextHeader 2)).1.index := by decide +kernel
  have hprev : ((regtestTree.acceptHeader regtestConfig (nextHeader 2)).1.entry
      (nextHeader 2).hash).prev = some regtestGenesis.header.hash := by decide +kernel
  exact ((median_time_rises htree hmem).1 _ hprev).1

end Chainstate

end QuantCore
