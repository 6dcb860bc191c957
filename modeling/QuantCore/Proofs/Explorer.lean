import QuantCore.Proofs.Keys
import QuantCore.Proofs.Records

/-!
# What the explorer's indexes hold after a restart

The files of the indexes are logs: they also have the records of blocks that were
disconnected, until the node starts. What is in memory is always right; what is
read back is as well as long as each block that is connected makes up for what
the log still has at its height.

Token by token an index is a journal beside its log, and connecting,
disconnecting and starting are the three things that can happen to such a pair.
-/

namespace QuantCore

open Journal Maps

variable [Crypto]

/-! ## Indexes that survive a restart -/

/-- The indexes that a stop and a start would leave. -/
def ExplorerNode.restarted (s : ExplorerNode) : Explorer := (s.step .restart).explorer

/-- The indexes list the records of the chain's blocks, and a restart gives them
back. -/
structure ExplorerNode.Exact (s : ExplorerNode) : Prop where
  points : ∀ t, recordsAt s.explorer.poolHist t = logAt (chainPoints s.chain) t
  trades : ∀ t, recordsAt s.explorer.trades t = logAt (chainTrades s.chain) t
  msgs : s.explorer.msgs = chainMsgs s.chain
  pointsBack : ∀ t, recordsAt s.restarted.poolHist t = recordsAt s.explorer.poolHist t
  tradesBack : ∀ t, recordsAt s.restarted.trades t = recordsAt s.explorer.trades t
  msgsBack : s.restarted.msgs = s.explorer.msgs

/-- What the files have at the height of the next block, of blocks that were
disconnected, is made up for by the block: it has a point for each pool that has
one there, and its trades and messages begin with those there. Its own trades and
messages are told apart by what the files are read by. -/
structure ExplorerNode.Covers (s : ExplorerNode) (b : Block) (pool : Hash256 → Option Pool) :
    Prop where
  points : ∀ t,
    poolRule.stale (s.tip + 1) (logAt (entriesOf poolRec readPoint s.explorer.poolFile) t) ≠ [] →
      logAt (Explorer.blockPoints b (s.tip + 1) pool) t ≠ []
  trades : ∀ t,
    tradeRule.once (tradeRule.stale (s.tip + 1)
        (logAt (entriesOf tradeRec readTrade s.explorer.tradesFile) t)) <+:
      logAt (Explorer.blockTrades b (s.tip + 1)) t
  tradesApart : ∀ t, (logAt (Explorer.blockTrades b (s.tip + 1)) t).Pairwise fun x y =>
    tradeRule.same y x = false
  msgs : msgRule.once (msgRule.stale (s.tip + 1) (messagesOf s.explorer.msgsFile)) <+:
    Explorer.blockMsgs b (s.tip + 1)
  msgsApart : (Explorer.blockMsgs b (s.tip + 1)).Pairwise fun x y => msgRule.same y x = false

/-- The blocks passed the checks of their transactions, and heights do not leave
their type. -/
structure ValidEvents (events : List ChainEvent) : Prop where
  heights : events.length < 2 ^ 63
  blocks : ∀ b pool, ChainEvent.connect b pool ∈ events →
    ∀ tx ∈ b.txs, ∃ w x, checkTxBasic tx w = .ok x

omit [Crypto] in
theorem ValidEvents.of_prefix {pre events : List ChainEvent} (hv : ValidEvents events)
    (h : pre <+: events) : ValidEvents pre :=
  ⟨lt_of_le_of_lt h.length_le hv.heights, fun b pool hb => hv.blocks b pool (h.subset hb)⟩

/-! ## The logs behind the files -/

/-- What was written to the files. -/
structure ExplorerLogs where
  points : List (Hash256 × PoolPoint)
  trades : List (Hash256 × TradePoint)
  msgs : List MsgPoint

omit [Crypto] in
/-- The files hold the logs, and can be read back. -/
structure Explorer.Filed (e : Explorer) (l : ExplorerLogs) : Prop where
  poolFile : e.poolFile = l.points.flatMap writePoint
  tradesFile : e.tradesFile = l.trades.flatMap writeTrade
  msgsFile : e.msgsFile = l.msgs.flatMap writeMsg
  points : ∀ p ∈ l.points, FitsHeight p.2.height
  trades : ∀ p ∈ l.trades, FitsHeight p.2.height
  msgs : ∀ m ∈ l.msgs, m.Kept

/-- The indexes in memory list the records of the chain's blocks. -/
structure ExplorerNode.Listed (s : ExplorerNode) : Prop where
  points : ∀ t, recordsAt s.explorer.poolHist t = logAt (chainPoints s.chain) t
  trades : ∀ t, recordsAt s.explorer.trades t = logAt (chainTrades s.chain) t
  msgs : s.explorer.msgs = chainMsgs s.chain

/-- The logs give back the records of the chain's blocks. -/
structure ExplorerLogs.Faithful (l : ExplorerLogs) (chain : ChainBlocks) : Prop where
  points : ∀ t, poolRule.Faithful (logAt l.points t) (logAt (chainPoints chain) t) chain.length
  trades : ∀ t, tradeRule.Faithful (logAt l.trades t) (logAt (chainTrades chain) t) chain.length
  msgs : msgRule.Faithful l.msgs (chainMsgs chain) chain.length

omit [Crypto] in
/-- What a start writes. -/
def Explorer.logs (e : Explorer) : ExplorerLogs where
  points := allRecords e.poolHist
  trades := allRecords e.trades
  msgs := e.msgs

namespace Explorer.Filed

variable {e : Explorer} {l : ExplorerLogs}

omit [Crypto] in
theorem entries_points (h : e.Filed l) : entriesOf poolRec readPoint e.poolFile = l.points := by
  rw [h.poolFile]
  exact entriesOf_flatMap (by decide) writePoint_length fun p hp => decodes_point (h.points p hp)

omit [Crypto] in
theorem entries_trades (h : e.Filed l) : entriesOf tradeRec readTrade e.tradesFile = l.trades := by
  rw [h.tradesFile]
  exact entriesOf_flatMap (by decide) writeTrade_length fun p hp => decodes_trade (h.trades p hp)

omit [Crypto] in
theorem entries_msgs (h : e.Filed l) : messagesOf e.msgsFile = l.msgs := by
  rw [h.msgsFile]
  exact messagesOf_flatMap h.msgs

end Explorer.Filed

omit [Crypto] in
theorem trim_replay {ρ : Type} (R : Rule ρ Int) (log : List ρ) {n : Nat} {tip : Int}
    (ht : tip + 1 = n) :
    R.trim tip (R.replay log) = (R.replay log).filter fun x => R.height x < (n : Int) := by
  rw [Rule.trim_eq (Rule.replay_ordered log)]
  refine List.filter_congr fun x _ => decide_eq_decide.mpr ?_
  rw [← ht]
  exact Int.lt_add_one_iff.symm

omit [Crypto] in
theorem ExplorerNode.tip_add_one (s : ExplorerNode) : s.tip + 1 = s.chain.length :=
  Int.sub_add_cancel _ 1

namespace ExplorerNode

variable {s : ExplorerNode} {l : ExplorerLogs}

theorem restarted_points (hf : s.explorer.Filed l) (t : Hash256) :
    recordsAt s.restarted.poolHist t =
      (poolRule.replay (logAt l.points t)).filter fun x => poolRule.height x < s.chain.length := by
  show recordsAt (mapRecords _ (replayAt poolRule (entriesOf poolRec readPoint _))) t = _
  rw [recordsAt_mapRecords rfl, recordsAt_replayAt, hf.entries_points,
    trim_replay poolRule _ s.tip_add_one]

theorem restarted_trades (hf : s.explorer.Filed l) (t : Hash256) :
    recordsAt s.restarted.trades t =
      (tradeRule.replay (logAt l.trades t)).filter fun x =>
        tradeRule.height x < s.chain.length := by
  show recordsAt (mapRecords _ (replayAt tradeRule (entriesOf tradeRec readTrade _))) t = _
  rw [recordsAt_mapRecords rfl, recordsAt_replayAt, hf.entries_trades,
    trim_replay tradeRule _ s.tip_add_one]

theorem restarted_msgs (hf : s.explorer.Filed l) :
    s.restarted.msgs =
      (msgRule.replay l.msgs).filter fun x => msgRule.height x < s.chain.length := by
  show msgRule.trim s.tip (msgRule.replay (messagesOf _)) = _
  rw [hf.entries_msgs, trim_replay msgRule _ s.tip_add_one]

/-- The indexes are exact if the memory is right and the logs give it back. -/
theorem exact_iff (hf : s.explorer.Filed l) : s.Exact ↔ s.Listed ∧ l.Faithful s.chain := by
  constructor
  · intro h
    exact ⟨⟨h.points, h.trades, h.msgs⟩,
      fun t => (restarted_points hf t).symm.trans ((h.pointsBack t).trans (h.points t)),
      fun t => (restarted_trades hf t).symm.trans ((h.tradesBack t).trans (h.trades t)),
      (restarted_msgs hf).symm.trans (h.msgsBack.trans h.msgs)⟩
  · rintro ⟨hl, hr⟩
    exact ⟨hl.points, hl.trades, hl.msgs,
      fun t => (restarted_points hf t).trans ((hr.points t).trans (hl.points t).symm),
      fun t => (restarted_trades hf t).trans ((hr.trades t).trans (hl.trades t).symm),
      (restarted_msgs hf).trans (hr.msgs.trans hl.msgs.symm)⟩

end ExplorerNode

/-! ## A block is connected -/

omit [Crypto] in
theorem tradeRule_same (r : TradePoint) : tradeRule.same r r = true := by
  show (r.txid == r.txid && r.amountIn == r.amountIn && r.amountOut == r.amountOut) = true
  rw [beq_self_eq_true, beq_self_eq_true, beq_self_eq_true]
  rfl

omit [Crypto] in
theorem msgRule_same (r : MsgPoint) : msgRule.same r r = true :=
  beq_self_eq_true r.txid

/-- What connecting a block writes. -/
def ExplorerLogs.add (l : ExplorerLogs) (b : Block) (h : Int) (pool : Hash256 → Option Pool) :
    ExplorerLogs where
  points := l.points ++ Explorer.blockPoints b h pool
  trades := l.trades ++ Explorer.blockTrades b h
  msgs := l.msgs ++ Explorer.blockMsgs b h

omit [Crypto] in
theorem checkOps_gift {tx : Transaction} {ops : List TxOp} {k : Nat}
    (h : checkOps tx ops k = .ok ()) : ∀ o, TxOp.message o ∈ ops → o.gift.toNat < giftCount := by
  induction ops generalizing k with
  | nil => exact fun o ho => absurd ho List.not_mem_nil
  | cons op ops ih =>
      rw [checkOps] at h
      split at h
      · cases h
      next k' hop =>
      intro o ho
      rcases List.mem_cons.mp ho with rfl | ho
      · rw [checkOp] at hop
        split at hop
        · cases hop
        split at hop
        · cases hop
        next hgift => exact Nat.lt_of_not_le hgift
      · exact ih h o ho

/-- The messages of a block that passed its checks can be kept. -/
theorem kept_blockMsgs {b : Block} {h : Int} (hh : FitsHeight h)
    (hb : ∀ tx ∈ b.txs, ∃ w x, checkTxBasic tx w = .ok x) :
    ∀ m ∈ Explorer.blockMsgs b h, m.Kept := by
  intro m hm
  obtain ⟨hheight, tx, htx, o, ho, hgift, htext⟩ := of_mem_blockMsgs hm
  obtain ⟨w, x, hcheck⟩ := hb tx htx
  have hlimit : o.text.length ≤ maxMessageText := checkTxBasic_limits hcheck _ ho
  rw [checkTxBasic] at hcheck
  split at hcheck
  · cases hcheck
  split at hcheck
  · cases hcheck
  split at hcheck
  · cases hcheck
  next hops =>
  exact ⟨hheight ▸ hh, hgift ▸ checkOps_gift hops o ho, htext ▸ hlimit⟩

namespace Explorer

variable {e : Explorer} {l : ExplorerLogs} {b : Block} {h : Int} {pool : Hash256 → Option Pool}

theorem connect_eq (b : Block) (pool : Hash256 → Option Pool)
    (hlow : ∀ t, ∀ x ∈ recordsAt e.trades t, x.height < h) :
    ∃ m, e.connect b h pool =
        { poolHist := (blockPoints b h pool).foldl (putAt poolRule) e.poolHist
          trades := m
          msgs := (e.msgs.rdropWhile fun x => x.height ≥ h) ++ blockMsgs b h
          poolFile := e.poolFile ++ (blockPoints b h pool).flatMap writePoint
          tradesFile := e.tradesFile ++ (blockTrades b h).flatMap writeTrade
          msgsFile := e.msgsFile ++ (blockMsgs b h).flatMap writeMsg } ∧
      ∀ t, recordsAt m t = recordsAt e.trades t ++ logAt (blockTrades b h) t := by
  obtain ⟨m, hm, hrec⟩ := foldl_pushTrade (e.poolHistConnect b h pool) []
    (blockTrades b h) fun t _ x hx => hlow t x (by
      rw [poolHistConnect_eq] at hx
      exact hx)
  refine ⟨m, ?_, fun t => ?_⟩
  · rw [connect, msgsConnect, tradesConnect, hm, poolHistConnect_eq]
  · rw [hrec t, poolHistConnect_eq]

/-- The files take what the block adds. -/
theorem Filed.connect (hf : e.Filed l) (hlow : ∀ t, ∀ x ∈ recordsAt e.trades t, x.height < h)
    (hh : FitsHeight h) (hb : ∀ m ∈ blockMsgs b h, m.Kept) :
    (e.connect b h pool).Filed (l.add b h pool) := by
  obtain ⟨m, hm, -⟩ := connect_eq b pool hlow
  rw [hm]
  refine ⟨?_, ?_, ?_, ?_, ?_, ?_⟩
  · show e.poolFile ++ _ = (l.points ++ _).flatMap writePoint
    rw [hf.poolFile, List.flatMap_append]
  · show e.tradesFile ++ _ = (l.trades ++ _).flatMap writeTrade
    rw [hf.tradesFile, List.flatMap_append]
  · show e.msgsFile ++ _ = (l.msgs ++ _).flatMap writeMsg
    rw [hf.msgsFile, List.flatMap_append]
  · show ∀ p ∈ l.points ++ _, _
    rw [List.forall_mem_append]
    exact ⟨hf.points, fun p hp => by rw [blockPoints_height hp]; exact hh⟩
  · show ∀ p ∈ l.trades ++ _, _
    rw [List.forall_mem_append]
    exact ⟨hf.trades, fun p hp => by rw [blockTrades_height hp]; exact hh⟩
  · show ∀ p ∈ l.msgs ++ _, _
    rw [List.forall_mem_append]
    exact ⟨hf.msgs, hb⟩

end Explorer

namespace ExplorerNode

variable {s : ExplorerNode} {l : ExplorerLogs}

theorem Exact.trades_low (hx : s.Exact) (hf : s.explorer.Filed l) (t : Hash256) :
    ∀ x ∈ recordsAt s.explorer.trades t, x.height < s.tip + 1 := by
  obtain ⟨hl, hr⟩ := (exact_iff hf).mp hx
  intro x hx
  rw [hl.trades t] at hx
  rw [s.tip_add_one]
  exact (hr.trades t).below hx

/-- What is in memory stays right. -/
theorem Listed.connect (hl : s.Listed) (hr : l.Faithful s.chain) (b : Block)
    (pool : Hash256 → Option Pool) : (s.step (.connect b pool)).Listed := by
  have hlow : ∀ t, ∀ x ∈ recordsAt s.explorer.trades t, x.height < s.tip + 1 := by
    intro t x hx
    rw [hl.trades t] at hx
    rw [s.tip_add_one]
    exact (hr.trades t).below hx
  obtain ⟨m, hm, hrec⟩ := Explorer.connect_eq b pool hlow
  refine ⟨fun t => ?_, fun t => ?_, ?_⟩
  · show recordsAt (s.explorer.connect b (s.tip + 1) pool).poolHist t =
      logAt (chainPoints (s.chain ++ [(b, pool)])) t
    rw [hm, chainPoints_concat, logAt_append, ← s.tip_add_one, recordsAt_foldl_putAt, hl.points t]
    rcases logAt_blockPoints b (s.tip + 1) pool t with hnone | ⟨r, hr', hone⟩
    · rw [hnone, List.append_nil]
      rfl
    · rw [hone]
      refine Rule.put_over (hr.points t).ordered fun x hx => ?_
      show _ < r.height
      rw [hr', s.tip_add_one]
      exact (hr.points t).below hx
  · show recordsAt (s.explorer.connect b (s.tip + 1) pool).trades t =
      logAt (chainTrades (s.chain ++ [(b, pool)])) t
    rw [hm, chainTrades_concat, logAt_append, ← s.tip_add_one, hrec t, hl.trades t]
  · show (s.explorer.connect b (s.tip + 1) pool).msgs = chainMsgs (s.chain ++ [(b, pool)])
    have hmlow : ∀ x ∈ s.explorer.msgs, x.height < s.tip + 1 := by
      rw [hl.msgs, s.tip_add_one]
      exact fun x hx => hr.msgs.below hx
    have hkeep : (s.explorer.msgs.rdropWhile fun x => x.height ≥ s.tip + 1) =
        s.explorer.msgs := by
      rw [List.rdropWhile_eq_self_iff]
      intro hne hlast
      rw [decide_eq_true_eq] at hlast
      exact hlast.not_gt (hmlow _ (List.getLast_mem hne))
    rw [hm, chainMsgs_concat, ← s.tip_add_one, hkeep, hl.msgs]

/-- The logs keep up just when the block covers what they still have. -/
theorem faithful_connect_iff (hf : s.explorer.Filed l) (hr : l.Faithful s.chain) (b : Block)
    (pool : Hash256 → Option Pool) :
    (l.add b (s.tip + 1) pool).Faithful (s.chain ++ [(b, pool)]) ↔ s.Covers b pool := by
  have hnext : ∀ x : Int, x < (s.chain ++ [(b, pool)]).length ↔ x ≤ s.tip + 1 := by
    intro x
    rw [s.tip_add_one, List.length_append, List.length_singleton]
    omega
  have hpoints : ∀ t, poolRule.Faithful
        (logAt (l.points ++ Explorer.blockPoints b (s.tip + 1) pool) t)
        (logAt (chainPoints (s.chain ++ [(b, pool)])) t) (s.chain ++ [(b, pool)]).length ↔
      (poolRule.stale (s.tip + 1) (logAt l.points t) ≠ [] →
        logAt (Explorer.blockPoints b (s.tip + 1) pool) t ≠ []) := by
    intro t
    have hold := hr.points t
    rw [← s.tip_add_one] at hold
    rw [chainPoints_concat, logAt_append, logAt_append, ← s.tip_add_one,
      hold.append_iff hnext fun r hr => blockPoints_height (mem_logAt.mp hr)]
    exact Rule.replay_stale_of_evicts rfl (logAt_blockPoints b (s.tip + 1) pool t)
  have htrades : ∀ t, tradeRule.Faithful
        (logAt (l.trades ++ Explorer.blockTrades b (s.tip + 1)) t)
        (logAt (chainTrades (s.chain ++ [(b, pool)])) t) (s.chain ++ [(b, pool)]).length ↔
      tradeRule.once (tradeRule.stale (s.tip + 1) (logAt l.trades t)) <+:
          logAt (Explorer.blockTrades b (s.tip + 1)) t ∧
        (logAt (Explorer.blockTrades b (s.tip + 1)) t).Pairwise fun x y =>
          tradeRule.same y x = false := by
    intro t
    have hold := hr.trades t
    rw [← s.tip_add_one] at hold
    have hh : ∀ r ∈ logAt (Explorer.blockTrades b (s.tip + 1)) t,
        tradeRule.height r = s.tip + 1 :=
      fun r hr => blockTrades_height (mem_logAt.mp hr)
    rw [chainTrades_concat, logAt_append, logAt_append, ← s.tip_add_one,
      hold.append_iff hnext hh]
    exact Rule.replay_stale_of_keeps rfl tradeRule_same hh
  have hmsgs : msgRule.Faithful (l.msgs ++ Explorer.blockMsgs b (s.tip + 1))
        (chainMsgs (s.chain ++ [(b, pool)])) (s.chain ++ [(b, pool)]).length ↔
      msgRule.once (msgRule.stale (s.tip + 1) l.msgs) <+: Explorer.blockMsgs b (s.tip + 1) ∧
        (Explorer.blockMsgs b (s.tip + 1)).Pairwise fun x y => msgRule.same y x = false := by
    have hold := hr.msgs
    rw [← s.tip_add_one] at hold
    have hh : ∀ r ∈ Explorer.blockMsgs b (s.tip + 1), msgRule.height r = s.tip + 1 :=
      fun r hr => (of_mem_blockMsgs hr).1
    rw [chainMsgs_concat, ← s.tip_add_one, hold.append_iff hnext hh]
    exact Rule.replay_stale_of_keeps rfl msgRule_same hh
  constructor
  · intro h
    refine ⟨fun t => ?_, fun t => ?_, fun t => ((htrades t).mp (h.trades t)).2, ?_,
      (hmsgs.mp h.msgs).2⟩
    · rw [hf.entries_points]
      exact (hpoints t).mp (h.points t)
    · rw [hf.entries_trades]
      exact ((htrades t).mp (h.trades t)).1
    · rw [hf.entries_msgs]
      exact (hmsgs.mp h.msgs).1
  · rintro ⟨hp, ht, hta, hm, hma⟩
    rw [hf.entries_points] at hp
    rw [hf.entries_trades] at ht
    rw [hf.entries_msgs] at hm
    exact ⟨fun t => (hpoints t).mpr (hp t), fun t => (htrades t).mpr ⟨ht t, hta t⟩,
      hmsgs.mpr ⟨hm, hma⟩⟩

/-! ## A block is disconnected -/

omit [Crypto] in
/-- Dropping the records of the last block. -/
theorem rdropWhile_last {ρ : Type} {height : ρ → Int} {v rs : List ρ} {n : Int}
    (hlow : ∀ x ∈ v, height x < n) (hrs : ∀ x ∈ rs, height x = n) :
    ((v ++ rs).rdropWhile fun x => height x ≥ n) = v := by
  induction rs using List.reverseRecOn with
  | nil =>
      rw [List.append_nil, List.rdropWhile_eq_self_iff]
      intro hne hlast
      exact (of_decide_eq_true hlast).not_gt (hlow _ (List.getLast_mem hne))
  | append_singleton rs r ih =>
      rw [List.forall_mem_append] at hrs
      have hr := hrs.2 r (List.mem_singleton_self r)
      rw [← List.append_assoc, List.rdropWhile_concat, if_pos (decide_eq_true hr.ge)]
      exact ih hrs.1

theorem Listed.disconnect (hl : s.Listed) (hr : l.Faithful s.chain) :
    (s.step .disconnect).Listed ∧ l.Faithful (s.step .disconnect).chain := by
  obtain ⟨chain, e⟩ := s
  rcases List.eq_nil_or_concat' chain with rfl | ⟨c, ⟨b, pool⟩, rfl⟩
  · refine ⟨⟨fun t => ?_, fun t => ?_, ?_⟩, hr⟩
    · show recordsAt (mapRecords _ e.poolHist) t = _
      rw [recordsAt_mapRecords rfl, hl.points t]
      rfl
    · show recordsAt (mapRecords _ e.trades) t = _
      rw [recordsAt_mapRecords rfl, hl.trades t]
      rfl
    · show e.msgs.rdropWhile _ = _
      rw [hl.msgs]
      rfl
  · have htip : (ExplorerNode.tip ⟨c ++ [(b, pool)], e⟩) = c.length := by
      rw [tip, List.length_append, List.length_singleton]
      omega
    have hchain : (ExplorerNode.step ⟨c ++ [(b, pool)], e⟩ .disconnect).chain = c :=
      List.dropLast_concat
    have hle : (c.length : Int) ≤ (c ++ [(b, pool)]).length := by
      rw [List.length_append]
      omega
    have hpoints : ∀ t, ((logAt (chainPoints (c ++ [(b, pool)])) t).rdropWhile fun x =>
        poolRule.height x ≥ c.length) = logAt (chainPoints c) t := by
      intro t
      rw [chainPoints_concat, logAt_append]
      exact rdropWhile_last
        (fun x hx => chainRecords_height (fun y h r hr => blockPoints_height hr) c _
          (mem_logAt.mp hx))
        fun x hx => blockPoints_height (mem_logAt.mp hx)
    have htrades : ∀ t, ((logAt (chainTrades (c ++ [(b, pool)])) t).rdropWhile fun x =>
        tradeRule.height x ≥ c.length) = logAt (chainTrades c) t := by
      intro t
      rw [chainTrades_concat, logAt_append]
      exact rdropWhile_last
        (fun x hx => chainRecords_height (fun y h r hr => blockTrades_height hr) c _
          (mem_logAt.mp hx))
        fun x hx => blockTrades_height (mem_logAt.mp hx)
    have hmsgs : ((chainMsgs (c ++ [(b, pool)])).rdropWhile fun x =>
        msgRule.height x ≥ c.length) = chainMsgs c := by
      rw [chainMsgs_concat]
      exact rdropWhile_last
        (fun x hx => chainRecords_height (fun y h r hr => (of_mem_blockMsgs hr).1) c _ hx)
        fun x hx => (of_mem_blockMsgs hx).1
    refine ⟨⟨fun t => ?_, fun t => ?_, ?_⟩, ?_⟩
    · show recordsAt (mapRecords (fun v => v.rdropWhile fun x =>
        x.height ≥ ExplorerNode.tip ⟨c ++ [(b, pool)], e⟩) e.poolHist) t = _
      rw [recordsAt_mapRecords rfl, hl.points t, htip, hchain]
      exact hpoints t
    · show recordsAt (mapRecords (fun v => v.rdropWhile fun x =>
        x.height ≥ ExplorerNode.tip ⟨c ++ [(b, pool)], e⟩) e.trades) t = _
      rw [recordsAt_mapRecords rfl, hl.trades t, htip, hchain]
      exact htrades t
    · show (e.msgs.rdropWhile fun x =>
        x.height ≥ ExplorerNode.tip ⟨c ++ [(b, pool)], e⟩) = _
      rw [hl.msgs, htip, hchain]
      exact hmsgs
    · rw [hchain]
      exact ⟨fun t => hpoints t ▸ (hr.points t).back hle,
        fun t => htrades t ▸ (hr.trades t).back hle, hmsgs ▸ hr.msgs.back hle⟩

/-! ## The node starts again -/

theorem filed_restart (hf : s.explorer.Filed l) : s.restarted.Filed s.restarted.logs := by
  refine ⟨rfl, rfl, rfl, fun p hp => ?_, fun p hp => ?_, fun m hm => ?_⟩
  · have hmem := mem_allRecords hp
    rw [restarted_points hf] at hmem
    exact hf.points p (mem_logAt.mp (Rule.mem_replay (List.mem_filter.mp hmem).1))
  · have hmem := mem_allRecords hp
    rw [restarted_trades hf] at hmem
    exact hf.trades p (mem_logAt.mp (Rule.mem_replay (List.mem_filter.mp hmem).1))
  · have hmem : m ∈ s.restarted.msgs := hm
    rw [restarted_msgs hf] at hmem
    exact hf.msgs m (Rule.mem_replay (List.mem_filter.mp hmem).1)

theorem Exact.restart (hx : s.Exact) (hf : s.explorer.Filed l) :
    (s.step .restart).Listed ∧ s.restarted.logs.Faithful s.chain := by
  obtain ⟨hl, hr⟩ := (exact_iff hf).mp hx
  refine ⟨⟨fun t => (hx.pointsBack t).trans (hx.points t),
    fun t => (hx.tradesBack t).trans (hx.trades t), hx.msgsBack.trans hx.msgs⟩,
    fun t => ?_, fun t => ?_, ?_⟩
  · show poolRule.Faithful (logAt (allRecords s.restarted.poolHist) t) _ _
    rw [logAt_allRecords, hx.pointsBack t, hx.points t]
    exact (hr.points t).compact
  · show tradeRule.Faithful (logAt (allRecords s.restarted.trades) t) _ _
    rw [logAt_allRecords, hx.tradesBack t, hx.trades t]
    exact (hr.trades t).compact
  · show msgRule.Faithful s.restarted.msgs _ _
    rw [hx.msgsBack, hx.msgs]
    exact hr.msgs.compact

/-! ## Runs -/

/-- Every file can be read back and every index is right. -/
def Sound (s : ExplorerNode) : Prop := s.Exact ∧ ∃ l, s.explorer.Filed l

theorem sound_empty : Sound ({} : ExplorerNode) := by
  have hf : ({} : ExplorerNode).explorer.Filed ⟨[], [], []⟩ :=
    ⟨rfl, rfl, rfl, fun p hp => absurd hp List.not_mem_nil, fun p hp => absurd hp List.not_mem_nil,
      fun m hm => absurd hm List.not_mem_nil⟩
  refine ⟨(exact_iff hf).mpr ⟨⟨fun t => rfl, fun t => rfl, rfl⟩, fun t => rfl, fun t => rfl, rfl⟩,
    _, hf⟩

theorem Sound.disconnect (h : s.Sound) : (s.step .disconnect).Sound := by
  obtain ⟨hx, l, hf⟩ := h
  obtain ⟨hl, hr⟩ := (exact_iff hf).mp hx
  have hf' : (s.step .disconnect).explorer.Filed l :=
    ⟨hf.poolFile, hf.tradesFile, hf.msgsFile, hf.points, hf.trades, hf.msgs⟩
  exact ⟨(exact_iff hf').mpr (hl.disconnect hr), l, hf'⟩

theorem Sound.restart (h : s.Sound) : (s.step .restart).Sound := by
  obtain ⟨hx, l, hf⟩ := h
  exact ⟨(exact_iff (filed_restart hf)).mpr (hx.restart hf), _, filed_restart hf⟩

/-- A block that is connected keeps the indexes right just when it covers what
the files still have. -/
theorem Sound.connect_iff (h : s.Sound) (b : Block) (pool : Hash256 → Option Pool)
    (hh : s.chain.length < 2 ^ 63) (hb : ∀ tx ∈ b.txs, ∃ w x, checkTxBasic tx w = .ok x) :
    (∃ l, (s.step (.connect b pool)).explorer.Filed l) ∧
      ((s.step (.connect b pool)).Exact ↔ s.Covers b pool) := by
  obtain ⟨hx, l, hf⟩ := h
  obtain ⟨hl, hr⟩ := (exact_iff hf).mp hx
  have hword : FitsHeight (s.tip + 1) := by
    rw [s.tip_add_one]
    exact ⟨Int.natCast_nonneg _, by exact_mod_cast hh⟩
  have hf' : (s.step (.connect b pool)).explorer.Filed (l.add b (s.tip + 1) pool) :=
    hf.connect (hx.trades_low hf) hword (kept_blockMsgs hword hb)
  refine ⟨⟨_, hf'⟩, ?_⟩
  rw [exact_iff hf', ← faithful_connect_iff hf hr]
  exact and_iff_right (hl.connect hr b pool)

theorem length_step_le (s : ExplorerNode) (e : ChainEvent) :
    (s.step e).chain.length ≤ s.chain.length + 1 := by
  cases e with
  | connect b pool =>
      show (s.chain ++ [(b, pool)]).length ≤ _
      rw [List.length_append]
      exact Nat.le_refl _
  | disconnect =>
      show s.chain.dropLast.length ≤ _
      rw [List.length_dropLast]
      omega
  | restart => exact Nat.le_succ _

theorem run_concat (events : List ChainEvent) (e : ChainEvent) :
    run (events ++ [e]) = (run events).step e := by
  rw [run, List.foldl_append]
  rfl

theorem length_run_le (events : List ChainEvent) : (run events).chain.length ≤ events.length := by
  induction events using List.reverseRecOn with
  | nil => exact Nat.le_refl 0
  | append_singleton events e ih =>
      rw [run_concat, List.length_append]
      exact (length_step_le _ e).trans (Nat.succ_le_succ ih)

/-- A run whose blocks cover what the files still have keeps the indexes right. -/
theorem sound_run {events : List ChainEvent} (hv : ValidEvents events)
    (hc : ∀ pre b pool, pre ++ [ChainEvent.connect b pool] <+: events →
      (run pre).Covers b pool) : (run events).Sound := by
  induction events using List.reverseRecOn with
  | nil => exact sound_empty
  | append_singleton events e ih =>
      have hlen := hv.heights
      rw [List.length_append, List.length_singleton] at hlen
      have hpre : (run events).Sound := ih
        ⟨by omega, fun b pool hb => hv.blocks b pool (List.mem_append_left _ hb)⟩
        fun pre b pool h => hc pre b pool (h.trans (List.prefix_append _ _))
      rw [run_concat]
      cases e with
      | connect b pool =>
          obtain ⟨hf, hiff⟩ := hpre.connect_iff b pool
            (lt_of_le_of_lt (length_run_le events) (by omega))
            (hv.blocks b pool (List.mem_append_right _ List.mem_cons_self))
          exact ⟨hiff.mpr (hc events b pool (List.prefix_refl _)), hf⟩
      | disconnect => exact hpre.disconnect
      | restart => exact hpre.restart

/-! ## Two chains -/

/-- A transaction of swaps with one pool. -/
def swapTx (swaps : List OpSwap) : Transaction where
  ins := [⟨5, 0⟩]
  outs := [⟨20000, 0, 7⟩]
  ops := swaps.map TxOp.swap
  witness := [.falcon (List.replicate falconPkBytes 0) [1]]

def swapBlock (swaps : List OpSwap) : Block := { txs := [swapTx swaps] }

/-- The pool is there after each block. -/
def swapPool (t : Hash256) : Option Pool := if t = 9 then some ⟨9, 5000, 6000, 2000⟩ else none

/-- A buy of 40 tokens. -/
def buy : OpSwap := ⟨9, false, 50, 40⟩

/-- The second block has two equal swaps in one transaction. -/
def twice : List ChainEvent :=
  [.connect {} swapPool, .connect (swapBlock [buy, buy]) swapPool]

/-- The second block, with a swap, gives way to one without. -/
def replaced : List ChainEvent :=
  [.connect {} swapPool, .connect (swapBlock [buy]) swapPool, .disconnect, .connect {} swapPool]

omit [Crypto] in
theorem swapBlock_checked {swaps : List OpSwap}
    (h : (checkTxBasic (swapTx swaps) true).isOk = true) :
    ∀ tx ∈ (swapBlock swaps).txs, ∃ w x, checkTxBasic tx w = .ok x := by
  intro tx htx
  obtain rfl := List.mem_singleton.mp htx
  cases hc : checkTxBasic (swapTx swaps) true with
  | error e =>
      rw [hc] at h
      cases h
  | ok x => exact ⟨true, x, hc⟩

omit [Crypto] in
theorem twice_valid : ValidEvents twice := by
  refine ⟨by decide, fun b pool hb => ?_⟩
  rcases List.mem_pair.mp hb with h | h
  · cases h
    exact fun tx htx => absurd htx List.not_mem_nil
  · cases h
    exact swapBlock_checked (by decide +kernel)

omit [Crypto] in
theorem replaced_valid : ValidEvents replaced := by
  refine ⟨by decide, fun b pool hb => ?_⟩
  rw [replaced, List.mem_cons, List.mem_cons, List.mem_pair] at hb
  rcases hb with h | h | h | h
  · cases h
    exact fun tx htx => absurd htx List.not_mem_nil
  · cases h
    exact swapBlock_checked (by decide +kernel)
  · cases h
  · cases h
    exact fun tx htx => absurd htx List.not_mem_nil

/-! ## Restarts -/

/-- A node's indexes are right after every step of a run just when every block
that is connected covers what the files still have at its height. -/
theorem survives {events : List ChainEvent} (hv : ValidEvents events) :
    (∀ pre, pre <+: events → (run pre).Exact) ↔
      ∀ pre b pool, pre ++ [ChainEvent.connect b pool] <+: events → (run pre).Covers b pool := by
  constructor
  · intro hx
    suffices hall : ∀ pre, pre <+: events → (run pre).Sound by
      intro pre b pool h
      have hpre := (List.prefix_append pre _).trans h
      have hlen := h.length_le
      rw [List.length_append, List.length_singleton] at hlen
      have hiff := ((hall pre hpre).connect_iff b pool
        (lt_of_le_of_lt (length_run_le pre) (by have := hv.heights; omega))
        (hv.blocks b pool (h.subset (List.mem_append_right _ List.mem_cons_self)))).2
      have hafter := hx _ h
      rw [run_concat] at hafter
      exact hiff.mp hafter
    intro pre
    induction pre using List.reverseRecOn with
    | nil => exact fun _ => sound_empty
    | append_singleton pre e ih =>
        intro h
        have hsound := ih ((List.prefix_append pre _).trans h)
        refine ⟨hx _ h, ?_⟩
        rw [run_concat]
        cases e with
        | connect b pool =>
            have hlen := h.length_le
            rw [List.length_append, List.length_singleton] at hlen
            exact (hsound.connect_iff b pool (lt_of_le_of_lt (length_run_le pre)
              (by have := hv.heights; omega))
              (hv.blocks b pool (h.subset (List.mem_append_right _ List.mem_cons_self)))).1
        | disconnect => exact hsound.disconnect.2
        | restart => exact hsound.restart.2
  · intro hc pre h
    exact (sound_run (hv.of_prefix h) fun p b pool hp => hc p b pool (hp.trans h)).1

/-! ## Runs that can be checked -/

omit [Crypto] in
theorem logAt_of_notMem {ρ : Type} {l : List (Hash256 × ρ)} {t : Hash256}
    (h : t ∉ l.map Prod.fst) : logAt l t = [] := by
  rw [logAt, List.map_eq_nil_iff, List.filter_eq_nil_iff]
  intro e he heq
  exact h (List.mem_map.mpr ⟨e, he, of_decide_eq_true heq⟩)

omit [Crypto] in
/-- What holds where there are no records is to be checked for the tokens that have
some. -/
theorem forall_logAt {ρ σ : Type} {l : List (Hash256 × ρ)} {l' : List (Hash256 × σ)}
    {p : List ρ → List σ → Prop} (hnil : p [] []) :
    ((∀ e ∈ l, p (logAt l e.1) (logAt l' e.1)) ∧ ∀ e ∈ l', p (logAt l e.1) (logAt l' e.1)) ↔
      ∀ t, p (logAt l t) (logAt l' t) := by
  refine ⟨fun ⟨h, h'⟩ t => ?_, fun h => ⟨fun e _ => h e.1, fun e _ => h e.1⟩⟩
  by_cases ht : t ∈ l.map Prod.fst
  · obtain ⟨e, he, rfl⟩ := List.mem_map.mp ht
    exact h e he
  by_cases ht' : t ∈ l'.map Prod.fst
  · obtain ⟨e, he, rfl⟩ := List.mem_map.mp ht'
    exact h' e he
  · rw [logAt_of_notMem ht, logAt_of_notMem ht']
    exact hnil

/-- Tokens are many, but those of two logs are few. -/
def decidableForallLogAt {ρ σ : Type} (l : List (Hash256 × ρ)) (l' : List (Hash256 × σ))
    (p : List ρ → List σ → Prop) [∀ v w, Decidable (p v w)] (hnil : p [] []) :
    Decidable (∀ t, p (logAt l t) (logAt l' t)) :=
  decidable_of_iff _ (forall_logAt hnil)

instance (s : ExplorerNode) (b : Block) (pool : Hash256 → Option Pool) :
    Decidable (s.Covers b pool) :=
  let points := entriesOf poolRec readPoint s.explorer.poolFile
  let trades := entriesOf tradeRec readTrade s.explorer.tradesFile
  let points' := Explorer.blockPoints b (s.tip + 1) pool
  let trades' := Explorer.blockTrades b (s.tip + 1)
  have := decidableForallLogAt points points'
    (fun v w => poolRule.stale (s.tip + 1) v ≠ [] → w ≠ []) fun h => absurd rfl h
  have := decidableForallLogAt trades trades'
    (fun v w => tradeRule.once (tradeRule.stale (s.tip + 1) v) <+: w ∧
      w.Pairwise fun x y => tradeRule.same y x = false) ⟨List.prefix_refl [], List.Pairwise.nil⟩
  decidable_of_iff ((∀ t, poolRule.stale (s.tip + 1) (logAt points t) ≠ [] →
        logAt points' t ≠ []) ∧
      (∀ t, tradeRule.once (tradeRule.stale (s.tip + 1) (logAt trades t)) <+: logAt trades' t ∧
        (logAt trades' t).Pairwise fun x y => tradeRule.same y x = false) ∧
      msgRule.once (msgRule.stale (s.tip + 1) (messagesOf s.explorer.msgsFile)) <+:
        Explorer.blockMsgs b (s.tip + 1) ∧
      (Explorer.blockMsgs b (s.tip + 1)).Pairwise fun x y => msgRule.same y x = false)
    ⟨fun ⟨hp, ht, hm, ha⟩ => ⟨hp, fun t => (ht t).1, fun t => (ht t).2, hm, ha⟩,
      fun h => ⟨h.points, fun t => ⟨h.trades t, h.tradesApart t⟩, h.msgs, h.msgsApart⟩⟩

/-- Every block that is connected covers what the files still have then. -/
def Covered : ExplorerNode → List ChainEvent → Prop
  | _, [] => True
  | s, .connect b pool :: rest => s.Covers b pool ∧ Covered (s.step (.connect b pool)) rest
  | s, .disconnect :: rest => Covered (s.step .disconnect) rest
  | s, .restart :: rest => Covered (s.step .restart) rest

instance instDecidableCovered : (s : ExplorerNode) → (events : List ChainEvent) →
    Decidable (Covered s events)
  | _, [] => isTrue trivial
  | s, .connect b pool :: rest =>
      have := instDecidableCovered (s.step (.connect b pool)) rest
      inferInstanceAs (Decidable (s.Covers b pool ∧ Covered (s.step (.connect b pool)) rest))
  | s, .disconnect :: rest => instDecidableCovered (s.step .disconnect) rest
  | s, .restart :: rest => instDecidableCovered (s.step .restart) rest

theorem Covered.covers {s : ExplorerNode} {events pre : List ChainEvent} {b : Block}
    {pool : Hash256 → Option Pool} (h : Covered s events)
    (hp : pre ++ [ChainEvent.connect b pool] <+: events) :
    (pre.foldl step s).Covers b pool := by
  induction events generalizing s pre with
  | nil => exact absurd (List.prefix_nil.mp hp) (by simp)
  | cons e rest ih =>
      cases pre with
      | nil =>
          obtain ⟨rfl, -⟩ := List.cons_prefix_cons.mp hp
          exact h.1
      | cons e' pre =>
          obtain ⟨rfl, hrest⟩ := List.cons_prefix_cons.mp hp
          rw [List.foldl_cons]
          cases e' with
          | connect b' pool' => exact ih h.2 hrest
          | disconnect => exact ih h hrest
          | restart => exact ih h hrest

/-- A block with a swap gives way to another with the same transaction. -/
def swappedAgain : List ChainEvent :=
  [.connect {} swapPool, .connect (swapBlock [buy]) swapPool, .disconnect,
    .connect { swapBlock [buy] with header := { nonce := 1 } } swapPool, .restart]

omit [Crypto] in
theorem swappedAgain_valid : ValidEvents swappedAgain := by
  refine ⟨by decide, fun b pool hb => ?_⟩
  simp only [swappedAgain, List.mem_cons, List.not_mem_nil, or_false, reduceCtorEq, false_or,
    ChainEvent.connect.injEq] at hb
  rcases hb with ⟨rfl, -⟩ | ⟨rfl, -⟩ | ⟨rfl, -⟩
  · exact fun tx htx => absurd htx List.not_mem_nil
  · exact swapBlock_checked (by decide +kernel)
  · show ∀ tx ∈ (swapBlock [buy]).txs, ∃ w x, checkTxBasic tx w = .ok x
    exact swapBlock_checked (by decide +kernel)

omit [Crypto] in
/-- Before and after the restart there is one trade, that of the block in the chain. -/
theorem survives_swappedAgain :
    letI := plainCrypto
    (recordsAt (run swappedAgain).explorer.trades 9).length = 1 ∧
      ∀ pre, pre <+: swappedAgain → (run pre).Exact := by
  let _ := plainCrypto
  have hcovered : Covered {} swappedAgain := by decide +kernel
  exact ⟨by decide +kernel, (survives swappedAgain_valid).mpr fun _ _ _ h => hcovered.covers h⟩

omit [Crypto] in
/-- A restart forgets the second of two equal swaps, and brings back a swap of a
block that is not in the chain. -/
theorem restart_miscounts :
    letI := plainCrypto
    (ValidEvents twice ∧ ¬ (run twice).Exact) ∧
      (ValidEvents replaced ∧ ¬ (run replaced).Exact) := by
  let _ := plainCrypto
  have hlost : (recordsAt (run twice).explorer.trades 9).length = 2 ∧
      (recordsAt (run twice).restarted.trades 9).length = 1 := by decide +kernel
  have hback : (recordsAt (run replaced).explorer.trades 9).length = 0 ∧
      (recordsAt (run replaced).restarted.trades 9).length = 1 := by decide +kernel
  refine ⟨⟨twice_valid, fun h => ?_⟩, ⟨replaced_valid, fun h => ?_⟩⟩
  · have := congrArg List.length (h.tradesBack 9)
    omega
  · have := congrArg List.length (h.tradesBack 9)
    omega

end ExplorerNode

end QuantCore
