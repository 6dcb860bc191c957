import QuantCore.Crypto.Instances
import QuantCore.Light.Headers

/-!
# Two sets of header rules

The full node checks a header against its block tree, the light client against
its vectors. On one chain the two histories are the same: the headers from the
tip down, read through parent pointers on one side and by index on the other. So
proof of work, difficulty and times are judged alike. What the node asks on top
of that, the version and a state commitment at the right heights, the light
client never looks at.
-/

namespace QuantCore

variable [Crypto]

/-! ## The retarget reads no further than its window -/

omit [Crypto] in
theorem lwmaLoop_congr {f g : Nat → HeaderInfo} {n : Nat} (hn : 1 ≤ n)
    (h : ∀ i, i ≤ n → f i = g i) (rounds : Nat) {j : Nat} (hj : 1 ≤ j) (weighted : Int)
    (sum : U256) : lwmaLoop f n rounds j weighted sum = lwmaLoop g n rounds j weighted sum := by
  induction rounds generalizing j weighted sum with
  | zero => rfl
  | succ k ih =>
      rw [lwmaLoop, lwmaLoop, h (n - j) (by omega), h (n - j + 1) (by omega)]
      exact ih (by omega) _ _

omit [Crypto] in
theorem nextBits_congr {f g : Nat → HeaderInfo} {t : Nat} (p : ChainParams)
    (h : ∀ i, i ≤ min lwmaWindow t → f i = g i) : nextBits t f p = nextBits t g p := by
  rw [nextBits, nextBits, h 0 (Nat.zero_le _)]
  split
  · rfl
  · simp only []
    split
    · rfl
    · rw [lwmaLoop_congr (by omega) h _ (Nat.le_refl 1)]

/-! ## A node that holds one chain -/

/-- The block tree of `s` is the chain `hs`, all of it active and none failed. -/
structure Chainstate.Holds (s : Chainstate) (hs : List BlockHeader) : Prop where
  nonempty : hs ≠ []
  chain : s.chain = hs.map BlockHeader.hash
  only : ∀ x ∈ s.index, x ∈ hs.map BlockHeader.hash
  entry : ∀ i h, hs[i]? = some h → ∃ e, s.lookup h.hash = some e ∧ e.header = h ∧
    e.height = i ∧ e.failed = false ∧
    e.prev = if i = 0 then none else (hs[i - 1]?).map BlockHeader.hash

namespace Chainstate.Holds

variable {s : Chainstate} {hs : List BlockHeader}

/-- The entry of a header of the chain. -/
theorem entry_eq (hh : s.Holds hs) {i : Nat} {h : BlockHeader} (hi : hs[i]? = some h) :
    (s.entry h.hash).header = h ∧ (s.entry h.hash).height = i ∧
      (s.entry h.hash).failed = false ∧
      (s.entry h.hash).prev = if i = 0 then none else (hs[i - 1]?).map BlockHeader.hash := by
  obtain ⟨e, he, hrest⟩ := hh.entry i h hi
  have hentry : s.entry h.hash = e := by
    rw [Chainstate.entry]
    show (s.lookup h.hash).getD default = e
    rw [he]
    rfl
  rw [hentry]
  exact hrest

omit [Crypto] in
/-- The newest of the first `i + 1` headers, and the ones below it. -/
theorem reverse_take {i : Nat} {h : BlockHeader} (hi : hs[i]? = some h) :
    (hs.take (i + 1)).reverse = h :: (hs.take i).reverse := by
  rw [List.take_add_one, hi, List.reverse_append]
  rfl

theorem timesBack_eq (hh : s.Holds hs) (k : Nat) {i : Nat} {h : BlockHeader}
    (hi : hs[i]? = some h) :
    s.timesBack k (some h.hash) =
      ((hs.take (i + 1)).reverse.take k).map fun x => int64 x.time := by
  induction k generalizing i h with
  | zero =>
      rw [Chainstate.timesBack, List.take_zero]
      rfl
  | succ k ih =>
      obtain ⟨hheader, -, -, hprev⟩ := hh.entry_eq hi
      rw [Chainstate.timesBack, hheader, hprev, reverse_take hi, List.take_succ_cons,
        List.map_cons]
      cases i with
      | zero =>
          rw [if_pos rfl, List.take_zero, List.reverse_nil, List.take_nil, List.map_nil]
          cases k <;> rfl
      | succ i =>
          have hlt : i < hs.length := by
            have := (List.getElem?_eq_some_iff.mp hi).1
            omega
          have hi' : hs[i]? = some hs[i] := List.getElem?_eq_getElem hlt
          rw [if_neg (Nat.succ_ne_zero i), Nat.add_sub_cancel, hi', Option.map_some, ih hi']

theorem headersBack_eq (hh : s.Holds hs) (k : Nat) {i : Nat} {h : BlockHeader}
    (hi : hs[i]? = some h) :
    s.headersBack k (some h.hash) =
      ((hs.take (i + 1)).reverse.take k).map fun x => ⟨x.time, x.bits⟩ := by
  induction k generalizing i h with
  | zero =>
      rw [Chainstate.headersBack, List.take_zero]
      rfl
  | succ k ih =>
      obtain ⟨hheader, -, -, hprev⟩ := hh.entry_eq hi
      rw [Chainstate.headersBack, hheader, hprev, reverse_take hi, List.take_succ_cons,
        List.map_cons]
      cases i with
      | zero =>
          rw [if_pos rfl, List.take_zero, List.reverse_nil, List.take_nil, List.map_nil]
          cases k <;> rfl
      | succ i =>
          have hlt : i < hs.length := by
            have := (List.getElem?_eq_some_iff.mp hi).1
            omega
          have hi' : hs[i]? = some hs[i] := List.getElem?_eq_getElem hlt
          rw [if_neg (Nat.succ_ne_zero i), Nat.add_sub_cancel, hi', Option.map_some, ih hi']

/-! ## The tip -/

omit [Crypto] in
theorem getElem?_tip {l : List BlockHeader} (hne : l ≠ []) :
    l[l.length - 1]? = some (l.getLast hne) := by
  rw [← List.getLast?_eq_getElem?, List.getLast?_eq_some_getLast hne]

theorem tip_eq (hh : s.Holds hs) : s.tip = (hs.getLast hh.nonempty).hash := by
  rw [Chainstate.tip, hh.chain, List.getLastD_eq_getLast?, List.getLast?_map,
    List.getLast?_eq_some_getLast hh.nonempty]
  rfl

theorem medianTimePast_tip (hh : s.Holds hs) :
    s.medianTimePast (hs.getLast hh.nonempty).hash = LightClient.medianTime hs := by
  have hpos := List.length_pos_iff.mpr hh.nonempty
  have hlen : hs.length - 1 + 1 = hs.length := by omega
  rw [Chainstate.medianTimePast, hh.timesBack_eq _ (getElem?_tip hh.nonempty), hlen,
    List.take_length]
  rfl

theorem nextBitsFor_tip (hh : s.Holds hs) (p : ChainParams) :
    s.nextBitsFor p (hs.getLast hh.nonempty).hash =
      nextBits (hs.length - 1) (LightClient.infoBack hs) p := by
  have hpos := List.length_pos_iff.mpr hh.nonempty
  have hlen : hs.length - 1 + 1 = hs.length := by omega
  have htip := getElem?_tip hh.nonempty
  rw [Chainstate.nextBitsFor, (hh.entry_eq htip).2.1, hh.headersBack_eq _ htip, hlen,
    List.take_length]
  refine nextBits_congr p fun i hi => ?_
  have hw : lwmaWindow = 60 := rfl
  have hi₁ : i < hs.reverse.length := by
    rw [List.length_reverse]
    omega
  have hi₂ : i < lwmaWindow + 2 := by omega
  rw [List.length_reverse] at hi₁
  simp only [LightClient.infoBack, List.getD_eq_getElem?_getD, List.getElem?_map,
    List.getElem?_take, if_pos hi₂, List.getElem?_reverse hi₁]
  rw [List.getElem?_eq_getElem (show hs.length - 1 - i < hs.length by omega)]
  rfl

/-- The tip hangs at no depth below itself. -/
theorem forkPoint_tip (hh : s.Holds hs) :
    s.forkPoint (hs.getLast hh.nonempty).hash = some (hs.getLast hh.nonempty).hash := by
  have htip := getElem?_tip hh.nonempty
  obtain ⟨-, hheight, -, -⟩ := hh.entry_eq htip
  have hat : s.atHeight (hs.length - 1) = some (hs.getLast hh.nonempty).hash := by
    rw [Chainstate.atHeight, hh.chain, List.getElem?_map, htip]
    rfl
  have hact : s.inActiveChain (hs.getLast hh.nonempty).hash = true := by
    rw [Chainstate.inActiveChain, hheight, hat, beq_self_eq_true]
  rw [Chainstate.forkPoint, hh.tip_eq, hheight, Nat.min_self]
  simp only [Chainstate.ancestor, hheight, Nat.lt_irrefl, gt_iff_lt, if_false, hact, if_true,
    hat]
  cases hs.length - 1 <;> rw [Chainstate.toActive, if_pos hact]

end Chainstate.Holds

/-! ## The rules that are asked by both -/

/-- What both ask of a header on top of `hs`. -/
structure SharedRules (p : ChainParams) (now : Int) (hs : List BlockHeader)
    (h : BlockHeader) : Prop where
  pow : checkPow h.hash h.bits p = true
  bits : h.bits = nextBits (hs.length - 1) (LightClient.infoBack hs) p
  old : LightClient.medianTime hs < int64 h.time
  future : int64 h.time ≤ now + maxFutureDrift

theorem LightClient.checkHeader_ok {p : ChainParams} {now : Int} {hs : List BlockHeader}
    {tip : Hash256} {h : BlockHeader} :
    checkHeader p now hs tip h = .ok () ↔ h.prev = tip ∧ SharedRules p now hs h := by
  rw [checkHeader]
  constructor
  · intro hc
    split at hc
    · cases hc
    next hprev =>
    split at hc
    · cases hc
    next hpow =>
    split at hc
    · cases hc
    next hbits =>
    split at hc
    · cases hc
    next hold =>
    split at hc
    · cases hc
    next hnew =>
    exact ⟨not_not.mp hprev, ⟨by simpa using hpow, not_not.mp hbits, by omega, by omega⟩⟩
  · rintro ⟨hprev, hr⟩
    have hold := hr.old
    have hnew := hr.future
    rw [if_neg (not_not.mpr hprev), hr.pow, if_neg (by simp), if_neg (not_not.mpr hr.bits),
      if_neg (by omega), if_neg (by omega)]

/-- What the node asks on top of them. -/
def NodeRules (p : ChainParams) (hs : List BlockHeader) (h : BlockHeader) : Prop :=
  h.version = 2 ∧ p.isCommitHeight hs.length ≠ h.stateCommit.isZero

/-- Is the header in the tree after the call? -/
def Chainstate.HeaderResult.accepted : Chainstate.HeaderResult → Bool
  | .ok _ => true
  | .known _ => true
  | .orphan => false
  | .invalid _ => false

theorem Chainstate.Holds.checkHeader_ok {s : Chainstate} {hs : List BlockHeader}
    (hh : s.Holds hs) (cfg : Config) (h : BlockHeader) :
    s.checkHeader cfg h (hs.getLast hh.nonempty).hash = .ok () ↔
      NodeRules cfg.params hs h ∧ SharedRules cfg.params (cfg.env.clock s.tick) hs h := by
  have hpos := List.length_pos_iff.mpr hh.nonempty
  have hlen : hs.length - 1 + 1 = hs.length := by omega
  obtain ⟨-, hheight, hfailed, -⟩ := hh.entry_eq (getElem?_tip hh.nonempty)
  rw [Chainstate.checkHeader, hfailed, hheight, hlen, hh.nextBitsFor_tip,
    hh.medianTimePast_tip, hh.forkPoint_tip, hh.tip_eq]
  simp only [Bool.false_eq_true, if_false, Nat.sub_self, gt_iff_lt, Nat.not_lt_zero]
  constructor
  · intro hc
    split at hc
    · cases hc
    next hver =>
    split at hc
    · cases hc
    next hcommit =>
    split at hc
    · cases hc
    next hpow =>
    split at hc
    · cases hc
    next hbits =>
    split at hc
    · cases hc
    next hold =>
    split at hc
    · cases hc
    next hnew =>
    exact ⟨⟨not_not.mp hver, hcommit⟩, ⟨by simpa using hpow, not_not.mp hbits, by omega,
      by omega⟩⟩
  · rintro ⟨⟨hver, hcommit⟩, hr⟩
    have hold := hr.old
    have hnew := hr.future
    rw [if_neg (not_not.mpr hver), if_neg hcommit, hr.pow, if_neg (by simp),
      if_neg (not_not.mpr hr.bits), if_neg (by omega), if_neg (by omega)]

theorem Chainstate.Holds.acceptHeader_accepted {s : Chainstate} {hs : List BlockHeader}
    (hh : s.Holds hs) (cfg : Config) {h : BlockHeader}
    (hprev : h.prev = (hs.getLast hh.nonempty).hash) :
    (s.acceptHeader cfg h).2.accepted = true ↔ h.hash ∈ hs.map BlockHeader.hash ∨
      (NodeRules cfg.params hs h ∧
        SharedRules cfg.params (cfg.env.clock s.tick) hs h) := by
  rw [← hh.checkHeader_ok, ← hprev, Chainstate.acceptHeader]
  cases hl : s.lookup h.hash with
  | some e =>
      have hmem : h.hash ∈ hs.map BlockHeader.hash :=
        hh.only _ (Maps.mem_iff_exists.mpr ⟨e, hl⟩)
      obtain ⟨x, hx, hxh⟩ := List.mem_map.mp hmem
      obtain ⟨i, hi, rfl⟩ := List.getElem_of_mem hx
      obtain ⟨e', he', -, -, hf, -⟩ := hh.entry i _ (List.getElem?_eq_getElem hi)
      rw [hxh, hl] at he'
      cases he'
      simp [hf, hmem, Chainstate.HeaderResult.accepted]
  | none =>
      have hnot : h.hash ∉ hs.map BlockHeader.hash := by
        intro hmem
        obtain ⟨x, hx, hxh⟩ := List.mem_map.mp hmem
        obtain ⟨i, hi, rfl⟩ := List.getElem_of_mem hx
        obtain ⟨e', he', -⟩ := hh.entry i _ (List.getElem?_eq_getElem hi)
        rw [hxh, hl] at he'
        cases he'
      obtain ⟨e, he, -⟩ := hh.entry _ _ (getElem?_tip hh.nonempty)
      rw [← hprev] at he
      simp only [he, hnot, false_or]
      cases hc : s.checkHeader cfg h h.prev with
      | error why => simp [Chainstate.HeaderResult.accepted]
      | ok u => simp [Chainstate.HeaderResult.accepted]

/-! ## Agreement -/

/-- On a node and a client that hold the same chain, at the same time, a header
on top of it is judged alike exactly if it either breaks a rule both ask, or
meets the node's own; a header that is in the chain already is known to the
node, and judged alike if it meets the shared rules. -/
theorem header_rules_agree {cfg : Config} {s : Chainstate} {hs : List BlockHeader}
    (hh : s.Holds hs) {env : LightEnv} {c : LightClient} (hheaders : c.headers = hs)
    (hhashes : c.hashes = hs.map BlockHeader.hash)
    (hclock : env.clock c.tick = cfg.env.clock s.tick) {h : BlockHeader}
    (hprev : h.prev = (hs.getLast hh.nonempty).hash) :
    ((c.appendHeader env cfg.params h).2 = .ok () ↔
        (s.acceptHeader cfg h).2.accepted = true) ↔
      if h.hash ∈ hs.map BlockHeader.hash then
        SharedRules cfg.params (cfg.env.clock s.tick) hs h
      else
        SharedRules cfg.params (cfg.env.clock s.tick) hs h → NodeRules cfg.params hs h := by
  have htip : c.tipHash = h.prev := by
    rw [hprev, LightClient.tipHash, hhashes, List.getLastD_eq_getLast?, List.getLast?_map,
      List.getLast?_eq_some_getLast hh.nonempty]
    rfl
  have hlight : (c.appendHeader env cfg.params h).2 = .ok () ↔
      SharedRules cfg.params (cfg.env.clock s.tick) hs h := by
    have hc : LightClient.checkHeader cfg.params (cfg.env.clock s.tick) hs h.prev h = .ok () ↔
        h.prev = h.prev ∧ SharedRules cfg.params (cfg.env.clock s.tick) hs h :=
      LightClient.checkHeader_ok
    rw [LightClient.appendHeader, hheaders, htip, hclock]
    cases hk : LightClient.checkHeader cfg.params (cfg.env.clock s.tick) hs h.prev h with
    | error why =>
        rw [hk] at hc
        constructor
        · intro he
          cases he
        · intro hr
          exact absurd (hc.mpr ⟨rfl, hr⟩) (by simp)
    | ok u =>
        rw [hk] at hc
        exact ⟨fun _ => (hc.mp rfl).2, fun _ => rfl⟩
  rw [hlight, hh.acceptHeader_accepted cfg hprev]
  split
  · next hmem => simp [hmem]
  · next hnot =>
      simp only [hnot, false_or]
      constructor
      · exact fun hi hr => (hi.mp hr).1
      · exact fun hi => ⟨fun hr => ⟨hi hr, hr⟩, fun hr => hr.2⟩

/-! ## On top of genesis -/

/-- A regtest node that has nothing but genesis, a hundred seconds later. -/
def genesisNode : Chainstate where
  index := (∅ : UMap Hash256 BlockIndex).insert regtestGenesis.header.hash
    { hash := regtestGenesis.header.hash, header := regtestGenesis.header, height := 0
      chainwork := {}, prev := none, skip := none, seq := 0 }
  chain := [regtestGenesis.header.hash]

omit [Crypto] in
def regtestConfig : Config :=
  ⟨.regtest, false, ⟨fun _ _ => false, fun _ => 1790121700⟩⟩

def genesisClient : LightClient := LightClient.loadHeaders (paramsFor .regtest) none

omit [Crypto] in
def regtestLight : LightEnv := ⟨fun _ => 1790121700, fun _ => false⟩

theorem genesisNode_holds : genesisNode.Holds [regtestGenesis.header] where
  nonempty := by simp
  chain := rfl
  only := by
    intro x hx
    rw [genesisNode, AList.mem_insert] at hx
    rcases hx with rfl | hx
    · exact List.mem_singleton.mpr rfl
    · exact absurd hx (AList.notMem_empty x)
  entry := by
    intro i h hi
    cases i with
    | succ i => cases hi
    | zero =>
        cases hi
        exact ⟨_, AList.lookup_insert _, rfl, rfl, rfl, rfl⟩

/-- The next header, of a version of one's choice. -/
def nextHeader (version : UInt32) : BlockHeader where
  version := version
  prev := regtestGenesis.header.hash
  time := 1790121601
  bits := (limitBelow 255).toCompact
  nonce := 1

theorem nextHeader_prev (version : UInt32) : (nextHeader version).prev =
    ([regtestGenesis.header].getLast genesisNode_holds.nonempty).hash := by
  rw [List.getLast_singleton]
  rfl

omit [Crypto] in
theorem header_rules_agree_next :
    letI := nonceCrypto
    (genesisClient.appendHeader regtestLight regtestConfig.params (nextHeader 2)).2 = .ok () ∧
      (genesisNode.acceptHeader regtestConfig (nextHeader 2)).2.accepted = true := by
  let _ := nonceCrypto
  have hagree : (genesisClient.appendHeader regtestLight regtestConfig.params
        (nextHeader 2)).2 = .ok () ↔
      (genesisNode.acceptHeader regtestConfig (nextHeader 2)).2.accepted = true :=
    (header_rules_agree genesisNode_holds rfl rfl rfl (nextHeader_prev 2)).mpr (by
      rw [if_neg (by decide +kernel)]
      exact fun _ => ⟨rfl, by decide +kernel⟩)
  have hlight : (genesisClient.appendHeader regtestLight regtestConfig.params
      (nextHeader 2)).2 = .ok () := by decide +kernel
  exact ⟨hlight, hagree.mp hlight⟩

omit [Crypto] in
/-- The client takes a header of version 3, which the node refuses. -/
theorem header_versions_differ :
    letI := nonceCrypto
    genesisNode.Holds [regtestGenesis.header] ∧
      (nextHeader 3).prev = regtestGenesis.header.hash ∧
      ¬ ((genesisClient.appendHeader regtestLight regtestConfig.params
            (nextHeader 3)).2 = .ok () ↔
          (genesisNode.acceptHeader regtestConfig (nextHeader 3)).2.accepted = true) := by
  let _ := nonceCrypto
  exact ⟨genesisNode_holds, rfl, by decide +kernel⟩

end QuantCore
