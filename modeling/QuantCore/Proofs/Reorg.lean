import QuantCore.Proofs.Tries

/-!
# What comes back after a reorganisation

The chainstate disconnects tip first, so the transactions of the old chain wait
in the order of their disconnection, last block first; at the new tip the
pending entries are applied again, and only then those of the old chain. So what
the mempool holds in the end is what comes of these tries, in this order.

A reorganisation keeps what is still valid if nothing that touches a transaction
of the old chain is tried before it out of turn, and it loses what is tried
before the transaction it spends.
-/

namespace QuantCore

open Maps Turns

variable [Crypto]

/-! ## The moves of a call -/

/-- A block that comes, and a block that goes with what is read back of it. -/
inductive Move
  | connected (b : Block)
  | disconnected (b : Block) (back : List Transaction)

/-- Writes down the moves, in order. -/
def journal (cfg : Config) : Callbacks (List Move) :=
  ⟨fun b j => j ++ [.connected b], fun s b j => j ++ [.disconnected b (Mempool.readBack cfg s b)],
    fun _ j => j⟩

/-- The moves of a call of `activate_best_chain`. -/
def Chainstate.moves (cfg : Config) (s : Chainstate) : List Move :=
  (Chainstate.activateLoopWith (journal cfg) cfg Chainstate.activateGuard s []).2

omit [Crypto] in
def Move.back : Move → List Transaction
  | .connected _ => []
  | .disconnected _ back => back

omit [Crypto] in
def Move.confirms : Move → List Transaction
  | .connected b => b.txs
  | .disconnected _ _ => []

/-- What was read back of the block of this hash. -/
def backOf (j : List Move) (h : Hash256) : List Transaction :=
  match j.find? fun
    | .connected _ => false
    | .disconnected b _ => b.header.hash == h with
  | some x => x.back
  | none => []

/-- The ids confirmed on the blocks of `chain`, among those that came. -/
def confirmedOn (chain : List Hash256) (j : List Move) : List Hash256 :=
  j.flatMap fun
    | .connected b => if chain.contains b.header.hash then b.txs.map Transaction.txid else []
    | .disconnected _ _ => []

/-! ## The mempool follows -/

namespace Mempool

/-- The mempool on `s` has the view `st.1`, its ids are `st.2`, and there is room
for `room` bytes more. -/
structure Follows (cfg : Config) (s : Chainstate) (m : Mempool)
    (st : LedgerView × List Hash256) (room : Nat) : Prop where
  sound : m.Sound cfg s
  view : m.viewOn s = st.1
  ids : m.order.map MempoolEntry.txid = st.2
  room : m.bytes + room ≤ maxBytes
  clean : m.dirty = false

theorem Books.mem_byId {m : Mempool} {l : List MempoolEntry} (h : m.Books l) (id : Hash256) :
    id ∈ m.byId ↔ id ∈ l.map MempoolEntry.txid := by
  rw [mem_iff_exists, List.mem_map]
  constructor
  · rintro ⟨k, hk⟩
    obtain ⟨e, he, hid, -⟩ := (h.index id k).mp hk
    exact ⟨e, he, hid⟩
  · rintro ⟨e, he, hid⟩
    exact ⟨e.node, (h.index id e.node).mpr ⟨e, he, hid, rfl⟩⟩

theorem rebuild_follows (cfg : Config) (s : Chainstate) {m : Mempool} (h : m.Books m.order)
    {room : Nat} (hroom : m.bytes + room ≤ maxBytes) :
    (m.rebuild cfg s).Follows cfg s (run (retry cfg s)
      ((m.order.map MempoolEntry.tx).map fun t => (t, false)) ({ base := s.reader }, [])) room := by
  have hfold : ∀ (r : List MempoolEntry) (m : Mempool) (v : LedgerView) (ids : List Hash256),
      (∀ e ∈ r, e.txid = e.tx.txid) → (ids ++ r.map MempoolEntry.txid).Nodup →
      m.viewOn s = v → m.order.map MempoolEntry.txid = ids →
      m.bytes + room ≤ maxBytes → m.dirty = false →
      let st := run (retry cfg s) ((r.map MempoolEntry.tx).map fun t => (t, false)) (v, ids)
      (r.foldl (rebuildEntry cfg s) m).viewOn s = st.1 ∧
        (r.foldl (rebuildEntry cfg s) m).order.map MempoolEntry.txid = st.2 ∧
        (r.foldl (rebuildEntry cfg s) m).bytes + room ≤ maxBytes ∧
        (r.foldl (rebuildEntry cfg s) m).dirty = false := by
    intro r
    induction r with
    | nil => exact fun m v ids _ _ hv hids hroom hd => ⟨hv, hids, hroom, hd⟩
    | cons e r ih =>
        intro m v ids he hnd hv hids hroom hd
        rw [List.forall_mem_cons] at he
        have hnew : ids.contains e.tx.txid = false := by
          rw [← Bool.not_eq_true, List.contains_iff_mem, ← he.1]
          intro hin
          rw [List.nodup_append'] at hnd
          exact hnd.2.2 hin List.mem_cons_self
        rw [List.foldl_cons, List.map_cons, List.map_cons, run_cons, rebuildEntry, hv]
        cases ha : v.apply e.tx (nextHeight s) cfg.params.genesisHash false with
        | mk v' r' =>
        cases r' with
        | error why =>
            have hstep : retry cfg s (e.tx, false) (v, ids) = none := by
              simp only [retry, hnew, ha, Bool.false_eq_true, if_false]
            rw [hstep]
            refine ih _ v ids he.2 (hnd.sublist ?_) hv hids
              (le_trans (Nat.add_le_add_right (Nat.sub_le _ _) room) hroom) hd
            exact (List.Sublist.refl ids).append (List.sublist_cons_self ..)
        | ok fee =>
            have hstep : retry cfg s (e.tx, false) (v, ids) = some (v', ids ++ [e.tx.txid]) := by
              simp only [retry, hnew, ha, Bool.false_eq_true, if_false]
            have hbase : v'.base = s.reader := by
              rw [LedgerView.apply_base ha, ← hv]
              rfl
            rw [hstep]
            refine ih _ v' (ids ++ [e.tx.txid]) he.2 ?_ (viewOn_eq rfl hbase) ?_ hroom hd
            · rw [List.append_assoc, List.singleton_append, ← he.1]
              exact hnd
            · show (m.order ++ [_]).map MempoolEntry.txid = _
              rw [List.map_append, hids, List.map_singleton, ← he.1]
  obtain ⟨hv, hids, hr, hd⟩ := hfold m.order
    { m with dirty := false, view := { base := s.reader }, order := [] } { base := s.reader } []
    h.ids h.txids rfl rfl hroom rfl
  exact ⟨(rebuild_spec cfg s h).1, hv, hids, hr, hd⟩

/-- A dry run on a fresh overlay decides what the view decides. -/
theorem apply_fresh (v : LedgerView) (tx : Transaction) (height : UInt64) (genesis : Hash256)
    (verify : Bool) : (LedgerView.apply { base := v.reader } tx height genesis verify).2 =
      (v.apply tx height genesis verify).2 := by
  rw [LedgerView.apply, LedgerView.apply, LedgerView.reader_mk]
  cases checkTx v.reader tx height genesis verify with
  | error e => rfl
  | ok x => rfl

theorem apply_coinbase {v : LedgerView} {tx : Transaction} (h : tx.isCoinbase = true)
    (height : UInt64) (genesis : Hash256) (verify : Bool) :
    (v.apply tx height genesis verify).2 = .error "coinbase-in-apply" := by
  rw [LedgerView.apply, checkTx, if_pos h]

/-- With room for it, a transaction passes the checks exactly if it is taken. -/
theorem checkAccept_iff {cfg : Config} {s : Chainstate} {m : Mempool} {v : LedgerView}
    {ids : List Hash256} {t : Transaction} (hid : t.txid ∈ m.byId ↔ t.txid ∈ ids)
    (hv : m.viewOn s = v) (hroom : m.bytes + t.writeFull.length ≤ maxBytes) :
    m.checkAccept cfg s t = .ok () ↔ takes cfg s v ids t = true := by
  have hprobe : m.probe cfg s t t.writeFull.length = .ok () ↔
      (v.apply t (nextHeight s) cfg.params.genesisHash true).2.toOption.any
        (fun fee => relayFee t ≤ fee) = true := by
    rw [probe, apply_fresh, hv]
    cases (v.apply t (nextHeight s) cfg.params.genesisHash true).2 with
    | error r => simp [Except.toOption]
    | ok fee =>
        simp only
        simp only [Except.toOption, Option.any_some, relayFee]
        split
        · next hfee =>
            constructor
            · intro h
              cases h
            · intro h
              exact absurd hfee (UInt64.not_lt.mpr (of_decide_eq_true h))
        · next hfee =>
            rw [if_neg (by omega)]
            exact ⟨fun _ => decide_eq_true (UInt64.not_lt.mp hfee), fun _ => rfl⟩
  rw [checkAccept, takes, admits]
  simp only [Bool.and_eq_true, Bool.not_eq_true', ← Bool.not_eq_true, List.contains_iff_mem,
    decide_eq_true_eq, ← hid, ← hprobe]
  by_cases h₁ : t.txid ∈ m.byId
  · simp [h₁]
  rw [if_neg h₁]
  by_cases h₂ : t.isCoinbase = true
  · rw [if_pos h₂, probe, apply_fresh, apply_coinbase h₂]
    simp
  rw [if_neg h₂]
  cases h₃ : checkTxBasic t true with
  | error r => simp [Except.toOption]
  | ok a =>
      simp only
      by_cases h₄ : t.writeFull.length > maxTxSize
      · rw [if_pos h₄]
        simp [Nat.not_le.mpr h₄]
      rw [if_neg h₄]
      by_cases h₅ : t.txid ∈ s.txindex
      · simp [h₅]
      rw [if_neg h₅, hv]
      by_cases h₆ : (t.ins.any fun i => v.spends i.prev) = true
      · rw [if_pos h₆]
        have hall : (t.ins.all fun i => !v.spends i.prev) = false := by
          rw [← Bool.not_eq_true, List.all_eq_true]
          intro hn
          obtain ⟨i, hi, hs⟩ := List.any_eq_true.mp h₆
          have := hn i hi
          rw [hs] at this
          cases this
        rw [hall]
        simp
      rw [if_neg h₆]
      have hall : (t.ins.all fun i => !v.spends i.prev) = true := by
        rw [List.all_eq_true]
        intro i hi
        rw [Bool.not_eq_true', ← Bool.not_eq_true]
        exact fun hs => h₆ (List.any_eq_true.mpr ⟨i, hi, hs⟩)
      rw [hall]
      simp [h₁, h₅, Nat.not_lt.mp h₄, Except.toOption]

/-- A transaction that is taken is accepted, and one that is not is refused. -/
theorem accept_follows {cfg : Config} {s : Chainstate} {m : Mempool} {v : LedgerView}
    {ids : List Hash256} {room : Nat} {t : Transaction}
    (h : m.Follows cfg s (v, ids) (t.writeFull.length + room)) :
    (m.accept cfg s t).1.Follows cfg s
      (if takes cfg s v ids t then
        ((v.apply t (nextHeight s) cfg.params.genesisHash true).1, ids ++ [t.txid])
      else (v, ids)) room := by
  have hid : t.txid ∈ m.byId ↔ t.txid ∈ ids := by
    rw [h.sound.books.mem_byId, h.ids]
  have hroom := h.room
  have hview : m.viewOn s = v := h.view
  have hiff : m.checkAccept cfg s t = .ok () ↔ takes cfg s v ids t = true :=
    checkAccept_iff hid hview (by omega)
  have hsound := accept_sound h.sound t
  rw [accept, h.clean] at hsound ⊢
  rw [if_neg (by decide), acceptClean] at hsound ⊢
  cases hc : m.checkAccept cfg s t with
  | error r =>
      have hno : takes cfg s v ids t ≠ true := by
        intro hyes
        rw [hiff.mpr hyes] at hc
        cases hc
      rw [if_neg hno]
      exact ⟨h.sound, hview, h.ids, by show m.bytes + room ≤ maxBytes; omega, h.clean⟩
  | ok u =>
      have hyes := hiff.mp hc
      have hany := (Bool.and_eq_true_iff.mp hyes).2
      rw [if_pos hyes]
      rw [hc] at hsound
      cases ha : v.apply t (nextHeight s) cfg.params.genesisHash true with
      | mk v' r =>
      cases r with
      | error e =>
          rw [ha] at hany
          cases hany
      | ok fee =>
          have hbase : v'.base = s.reader := by
            rw [LedgerView.apply_base ha, ← hview]
            rfl
          simp only [hview, apply_verify ha] at hsound ⊢
          refine ⟨hsound, viewOn_eq rfl hbase, ?_, ?_, h.clean⟩
          · show (m.order ++ [_]).map MempoolEntry.txid = _
            rw [List.map_append, h.ids]
            rfl
          · show m.bytes + t.writeFull.length + room ≤ maxBytes
            omega

/-- At a new tip, with room for all that was read back. -/
theorem onTip_follows {cfg : Config} {s : Chainstate} {m : Mempool} (h : m.Books m.order)
    (hd : m.dirty = true)
    (hroom : m.bytes + (m.readd.map fun t => t.writeFull.length).sum ≤ maxBytes) :
    ((m.onTip cfg s).order.map MempoolEntry.txid) =
      comeback cfg s (m.order.map MempoolEntry.tx) m.readd := by
  have hfold : ∀ (txs : List Transaction) (m : Mempool) (st : LedgerView × List Hash256),
      m.Follows cfg s st (txs.map fun t => t.writeFull.length).sum →
      (txs.foldl (fun m tx => (m.accept cfg s tx).1) m).order.map MempoolEntry.txid =
        (run (retry cfg s) (txs.map fun t => (t, true)) st).2 := by
    intro txs
    induction txs with
    | nil => exact fun m st h => h.ids
    | cons t txs ih =>
        intro m st h
        rw [List.map_cons, List.sum_cons] at h
        have hstep := accept_follows h
        rw [List.foldl_cons, List.map_cons, run_cons, retry]
        split
        · next hyes =>
            rw [if_pos hyes] at hstep
            exact ih _ _ hstep
        · next hno =>
            rw [if_neg hno] at hstep
            exact ih _ _ hstep
  have hr := rebuild_follows cfg s h hroom
  rw [onTip, if_pos hd, comeback, tries, run_append, (rebuild_spec cfg s h).2]
  exact hfold _ _ _ ⟨⟨hr.sound.view, hr.sound.books.of_eq rfl rfl rfl⟩, hr.view, hr.ids, hr.room,
    hr.clean⟩

/-! ## The whole call -/

/-- The entries that none of the moves confirms. -/
def pendingAfter (m : Mempool) (j : List Move) : List MempoolEntry :=
  m.order.filter fun e => !((j.flatMap Move.confirms).map Transaction.txid).contains e.txid

/-- What was waiting, and what the moves read back. -/
def readdAfter (m : Mempool) (j : List Move) : List Transaction :=
  m.readd ++ j.flatMap Move.back

/-- The mempool during a call that began with `m₀` on `s₀`, after the moves `j`. -/
structure Shifted (s₀ : Chainstate) (m₀ : Mempool) (s : Chainstate) (m : Mempool)
    (j : List Move) : Prop where
  books : m.Books m.order
  order : m.order = m₀.pendingAfter j
  readd : m.readd = m₀.readdAfter j
  bytes : m.bytes ≤ m₀.bytes
  dirty : j ≠ [] → m.dirty = true
  still : j = [] → s.chain = s₀.chain

theorem shifted_related (cfg : Config) (s₀ : Chainstate) (m₀ : Mempool) :
    (callbacks cfg).Related cfg (journal cfg) (Shifted s₀ m₀) where
  quiet := fun h _ hc => { h with still := fun hj => hc.trans (h.still hj) }
  connect := by
    intro s idx b v m j _ h
    obtain ⟨hbooks, -, -⟩ := onConnect_books h.books b
    obtain ⟨ho, hbytes, hr⟩ := onConnect_order h.books b
    refine ⟨hbooks, ?_, ?_, hbytes.trans h.bytes, fun _ => rfl, fun hj => ?_⟩
    · show (m.onConnect b).order = m₀.pendingAfter (j ++ [.connected b])
      rw [ho, h.order, pendingAfter, pendingAfter, List.filter_filter]
      refine List.filter_congr fun e _ => ?_
      rw [List.flatMap_append, List.flatMap_singleton, Move.confirms, List.map_append,
        List.contains_append, Bool.not_or]
      exact Bool.and_comm _ _
    · show (m.onConnect b).readd = m₀.readdAfter (j ++ [.connected b])
      rw [hr, h.readd, readdAfter, readdAfter, List.flatMap_append, List.flatMap_singleton,
        Move.back, List.append_nil]
    · exact absurd hj (List.append_ne_nil_of_right_ne_nil _ (List.cons_ne_nil _ _))
  disconnect := by
    intro s b u m j h
    refine ⟨h.books.of_eq rfl rfl rfl, ?_, ?_, h.bytes, fun _ => rfl, fun hj => ?_⟩
    · show m.order = m₀.pendingAfter (j ++ [.disconnected b _])
      rw [h.order, pendingAfter, pendingAfter, List.flatMap_append, List.flatMap_singleton,
        Move.confirms, List.append_nil]
    · show m.readd ++ _ = m₀.readdAfter (j ++ [.disconnected b _])
      rw [h.readd, readdAfter, readdAfter, List.flatMap_append, List.flatMap_singleton,
        Move.back, List.append_assoc]
    · exact absurd hj (List.append_ne_nil_of_right_ne_nil _ (List.cons_ne_nil _ _))

/-- The bytes of all that may have to be held at once. -/
def demand (m : Mempool) (j : List Move) : Nat :=
  m.bytes + ((m.readdAfter j).map fun t => t.writeFull.length).sum

theorem activateWith_comeback {cfg : Config} {s : Chainstate} {m : Mempool}
    (h : m.Books m.order) (htip : (s.activateBestChain cfg).tip ≠ s.tip)
    (hroom : m.demand (s.moves cfg) ≤ maxBytes) :
    (s.activateWith (callbacks cfg) cfg m).2.order.map MempoolEntry.txid =
      comeback cfg (s.activateBestChain cfg)
        ((m.pendingAfter (s.moves cfg)).map MempoolEntry.tx) (m.readdAfter (s.moves cfg)) := by
  have hstart : Shifted s m s m [] := by
    refine ⟨h, ?_, ?_, le_refl _, fun hn => absurd rfl hn, fun _ => rfl⟩
    · exact (List.filter_eq_self.mpr (by simp)).symm
    · exact (List.append_nil _).symm
  obtain ⟨s₁, m₁, j, h₁, h₂, hm⟩ := Chainstate.activateLoopWith_related
    (shifted_related cfg s m) Chainstate.activateGuard hstart
  have hchain : s.activateBestChain cfg = s₁.dropCandidates := by
    rw [Chainstate.activateBestChain,
      ← Chainstate.activateLoopWith_fst (callbacks cfg) cfg _ s m, h₁]
  have hj : s.moves cfg = j := by
    rw [Chainstate.moves, h₂]
  have hne : j ≠ [] := by
    intro hn
    refine htip ?_
    rw [hchain]
    show s₁.chain.getLastD 0 = s.chain.getLastD 0
    rw [hm.still hn]
  rw [hchain] at htip ⊢
  rw [hj, demand, ← hm.readd] at hroom
  rw [Chainstate.activateWith, h₁, hj, ← hm.order, ← hm.readd]
  simp only
  rw [if_pos htip]
  exact onTip_follows hm.books (hm.dirty hne)
    (le_trans (Nat.add_le_add_right hm.bytes _) hroom)

end Mempool

namespace Chainstate

/-! ## What should come back -/

/-- The entries no block of the call confirms: they stay. -/
def staying (cfg : Config) (s : Chainstate) (m : Mempool) : List Transaction :=
  (m.pendingAfter (s.moves cfg)).map MempoolEntry.tx

/-- What waits for the new tip: what waited before, and what was read back. -/
def waiting (cfg : Config) (s : Chainstate) (m : Mempool) : List Transaction :=
  m.readdAfter (s.moves cfg)

/-- The transactions of the blocks that left the chain, in its order, then the
pending ones, without those the new chain has. -/
def unsettled (cfg : Config) (s : Chainstate) (m : Mempool) : List Transaction :=
  let s' := s.activateBestChain cfg
  ((s.chain.filter fun h => !s'.chain.contains h).flatMap (backOf (s.moves cfg)) ++
    m.order.map MempoolEntry.tx).filter fun t =>
      !(confirmedOn (s'.chain.filter fun h => !s.chain.contains h) (s.moves cfg)).contains t.txid

/-- What is accepted when they are applied in that order to the state at the new
tip, with the fees. -/
def stillValid (cfg : Config) (s : Chainstate) (m : Mempool) : List (Transaction × Amount) :=
  validIn cfg (s.activateBestChain cfg) (s.staying cfg m) (s.unsettled cfg m)

/-- What is still valid, and pays for its relay, is in the mempool after the call. -/
def KeepsValid (cfg : Config) (s : Chainstate) (m : Mempool) : Prop :=
  ∀ x ∈ s.stillValid cfg m, relayFee x.1 ≤ x.2 →
    x.1.txid ∈ (s.activateWith (Mempool.callbacks cfg) cfg m).2.byId

end Chainstate

namespace Mempool

/-! ## In every state -/

/-- The books are in order, and what an entry spends is spent in the view. Unlike
soundness this survives every call. -/
structure Tidy (m : Mempool) : Prop where
  books : m.Books m.order
  spent : ∀ e ∈ m.order, ∀ i ∈ e.tx.ins, m.view.spends i.prev = true

theorem Sound.tidy {cfg : Config} {s : Chainstate} {m : Mempool} (h : m.Sound cfg s) :
    m.Tidy where
  books := h.books
  spent := by
    intro e he i hi
    have hs : (m.viewOn s).spends i.prev = true := by
      rw [replay_spends h.view, Bool.or_eq_true, List.any_eq_true]
      exact .inr ⟨e, he, List.contains_iff_mem.mpr (List.mem_map_of_mem hi)⟩
    exact hs

theorem accept_tidy {cfg : Config} {s : Chainstate} {m : Mempool} (h : m.Tidy)
    (tx : Transaction) : (m.accept cfg s tx).1.Tidy := by
  have hclean : ∀ m : Mempool, m.Tidy → (m.acceptClean cfg s tx).1.Tidy := by
    intro m h
    rw [acceptClean]
    split
    · exact h
    · next hc =>
        obtain ⟨hid, hfree⟩ := checkAccept_ok hc
        split
        · exact h
        · next v fee ha =>
            refine ⟨h.books.push hid v fee ?_, ?_⟩
            · intro e he i hi j hj heq
              have hspent : (m.viewOn s).spends i.prev = true := h.spent e he i hi
              rw [heq, hfree j hj] at hspent
              cases hspent
            · refine List.forall_mem_append.mpr ⟨fun e he i hi => ?_, ?_⟩
              · have hspent : (m.viewOn s).spends i.prev = true := h.spent e he i hi
                show v.spends i.prev = true
                rw [LedgerView.apply_spends ha, hspent, Bool.true_or]
              · refine List.forall_mem_singleton.mpr fun i hi => ?_
                show v.spends i.prev = true
                rw [LedgerView.apply_spends ha,
                  List.contains_iff_mem.mpr (List.mem_map_of_mem hi), Bool.or_true]
  rw [accept]
  split
  · exact hclean _ (rebuild_spec cfg s h.books).1.tidy
  · exact hclean m h

theorem onTip_tidy {cfg : Config} {s : Chainstate} {m : Mempool} (h : m.Tidy) :
    (m.onTip cfg s).Tidy := by
  have hfold : ∀ (txs : List Transaction) (m : Mempool), m.Tidy →
      (txs.foldl (fun m tx => (m.accept cfg s tx).1) m).Tidy := by
    intro txs
    induction txs with
    | nil => exact fun m h => h
    | cons tx txs ih => exact fun m h => ih _ (accept_tidy h tx)
  rw [onTip]
  split
  · have hr := (rebuild_spec cfg s h.books).1.tidy
    exact hfold _ _ ⟨hr.books.of_eq rfl rfl rfl, hr.spent⟩
  · exact hfold _ _ ⟨h.books.of_eq rfl rfl rfl, h.spent⟩

theorem activateWith_tidy {cfg : Config} {s : Chainstate} {m : Mempool} (h : m.Tidy) :
    (s.activateWith (callbacks cfg) cfg m).2.Tidy := by
  obtain ⟨s₁, m₁, moved, h₁, hm⟩ := activateLoopWith_moving cfg s h.books
  have htidy : m₁.Tidy :=
    ⟨hm.books, fun e he => by rw [hm.view]; exact h.spent e (hm.order.subset he)⟩
  rw [Chainstate.activateWith, h₁]
  simp only
  split
  · exact onTip_tidy htidy
  · exact htidy

end Mempool

namespace FullNode

theorem thenActivate_tidy {cfg : Config} {m : Mempool} (h : m.Tidy)
    (r : Chainstate × Except String Bool) : (thenActivate cfg m r).mp.Tidy := by
  obtain ⟨s, r⟩ := r
  cases r with
  | error e => exact h
  | ok go =>
      cases go with
      | false => exact h
      | true => exact Mempool.activateWith_tidy h

theorem reached_tidy {cfg : Config} {ok : FullNode → NodeCmd → Prop} {n : FullNode}
    (h : Reached cfg ok n) : n.mp.Tidy := by
  induction h with
  | start h => exact (start_sound h).tidy
  | @run n n' c _ _ hr ih =>
      cases c with
      | accept tx =>
          cases hr
          exact Mempool.accept_tidy ih tx
      | header hd =>
          cases hr
          exact ih
      | block b w =>
          cases hr
          exact thenActivate_tidy ih _
      | snapshot x =>
          cases hr
          exact thenActivate_tidy ih _
      | flush =>
          cases hr
          exact ih
      | restart => exact (start_sound hr).tidy

/-! ## A reorganisation -/

theorem mem_byId_after {cfg : Config} {ok : FullNode → NodeCmd → Prop} {n : FullNode}
    (hn : Reached cfg ok n) {s : Chainstate} (htip : (s.activateBestChain cfg).tip ≠ s.tip)
    (hroom : n.mp.demand (s.moves cfg) ≤ Mempool.maxBytes) (id : Hash256) :
    id ∈ (s.activateWith (Mempool.callbacks cfg) cfg n.mp).2.byId ↔
      id ∈ comeback cfg (s.activateBestChain cfg) (s.staying cfg n.mp) (s.waiting cfg n.mp) := by
  have htidy := reached_tidy hn
  have hbooks := (@Mempool.activateWith_tidy _ cfg s _ htidy).books
  rw [hbooks.mem_byId, Mempool.activateWith_comeback htidy.books htip hroom]
  rfl

/-- A call of `activate_best_chain` that ends on another tip, on any chain a node
may have and with any mempool. What is valid is kept if the tries take their turns,
and it is not if some of it is an orphan when it is tried. -/
theorem reorg_keeps_valid {cfg : Config} {ok : FullNode → NodeCmd → Prop} {n : FullNode}
    (hn : Reached cfg ok n) (s : Chainstate) (htip : (s.activateBestChain cfg).tip ≠ s.tip)
    (hroom : n.mp.demand (s.moves cfg) ≤ Mempool.maxBytes)
    (hpaid : ∀ x ∈ s.stillValid cfg n.mp, relayFee x.1 ≤ x.2) :
    (InTurn cfg (s.activateBestChain cfg) (s.staying cfg n.mp) (s.waiting cfg n.mp)
      (s.unsettled cfg n.mp) → s.KeepsValid cfg n.mp) ∧
    ((∃ x ∈ s.stillValid cfg n.mp, Orphaned (s.activateBestChain cfg) (s.staying cfg n.mp)
      (s.waiting cfg n.mp) x.1.txid) → ¬ s.KeepsValid cfg n.mp) := by
  constructor
  · intro hturn x hx _
    rw [mem_byId_after hn htip hroom]
    exact comeback_valid hturn hpaid x hx
  · intro horphan hkeeps
    obtain ⟨x, hx, horphan⟩ := horphan
    have hin := hkeeps x hx (hpaid x hx)
    rw [mem_byId_after hn htip hroom] at hin
    exact comeback_orphaned horphan hin

end FullNode

end QuantCore

namespace QuantCore.FullNode

attribute [local instance] stampCrypto

/-! ## A payment that does not come back -/

/-- A script, and the chainstate to activate after one more empty block of a side
branch. -/
def beforeReorg (script : List (FullNode → NodeCmd)) (base k : Nat) :
    Option (FullNode × Chainstate) :=
  (runFresh testConfig script).toOption.bind fun n =>
    match n.cs.receiveBlock testConfig
        (sideBlock base k (sampleCoinbase (base + k + 1)) [] n) true with
    | (s, .ok true) => some (n, s)
    | _ => none

theorem beforeReorg_quick (script : List (FullNode → NodeCmd)) (base k : Nat) :
    beforeReorg script base k = (quickFresh testConfig script).toOption.bind fun n =>
      match n.cs.quickBlock testConfig
          (sideBlock base k (sampleCoinbase (base + k + 1)) [] n) true with
      | (s, .ok true) => some (n, s)
      | _ => none := by
  rw [beforeReorg, runFresh_quick]
  simp only [Chainstate.receiveBlock_quick]

/-- The call moves the tip, and there is room. -/
def reorgs (x : FullNode × Chainstate) : Bool :=
  (x.2.activateBestChain testConfig).tip != x.2.tip &&
    x.1.mp.demand (x.2.moves testConfig) ≤ Mempool.maxBytes

theorem beforeReorg_some {script : List (FullNode → NodeCmd)} {base k : Nat} {n : FullNode}
    {s : Chainstate} (h : beforeReorg script base k = some (n, s)) :
    Reached testConfig (fun _ _ => True) n ∧
      ∃ b, n.cs.receiveBlock testConfig b true = (s, .ok true) := by
  rw [beforeReorg, Option.bind_eq_some_iff] at h
  obtain ⟨n', hn, h⟩ := h
  split at h
  · next s' hb =>
      cases h
      cases hr : runFresh testConfig script with
      | error e =>
          rw [hr] at hn
          cases hn
      | ok n' =>
          rw [hr] at hn
          cases hn
          exact ⟨reached_runFresh hr, _, hb⟩
  · cases h

theorem reorgs_iff {x : FullNode × Chainstate} (h : reorgs x = true) :
    (x.2.activateBestChain testConfig).tip ≠ x.2.tip ∧
      x.1.mp.demand (x.2.moves testConfig) ≤ Mempool.maxBytes := by
  obtain ⟨htip, hroom⟩ := Bool.and_eq_true_iff.mp h
  exact ⟨bne_iff_ne.mp htip, of_decide_eq_true hroom⟩

/-- Spend outputs of a transaction. -/
def sampleSpend (t : Transaction) (ns : List UInt32) (outs : List Amount) : Transaction where
  ins := ns.map fun n => ⟨⟨t.txid, n⟩⟩
  outs := outs.map fun v => ⟨v, qntAsset, addressHash sampleKey⟩
  witness := ns.map fun _ => .falcon sampleKey [1]

/-- The reward in three parts, a payment of the first part, one that spends it in
turn, and one of the other two parts. -/
def sampleSplit : Transaction :=
  sampleSpend (sampleCoinbase 1) [0] (List.replicate 3 16600000000)
def sampleParent : Transaction := sampleSpend sampleSplit [0] (List.replicate 2 8200000000)
def sampleChild : Transaction := sampleSpend sampleParent [0, 1] [16200000000]
def sampleOther : Transaction := sampleSpend sampleSplit [1, 2] [33000000000]

/-- Block 11 splits the reward, block 12 has the payment and what spends it, block 13
the other payment. Then two blocks of another branch above block 11. -/
def turnScript : List (FullNode → NodeCmd) :=
  List.replicate 10 (extendTip []) ++
    [extendTip [sampleSplit], extendTip [sampleParent, sampleChild], extendTip [sampleOther],
      extendSide 11 0 (sampleCoinbase 12) [], extendSide 11 1 (sampleCoinbase 13) []]

/-- All three are valid and pay, and they are tried in turn, the other one first. -/
def turns (x : FullNode × Chainstate) : Bool :=
  let valid := x.2.stillValid testConfig x.1.mp
  let waiting := x.2.waiting testConfig x.1.mp
  reorgs x && valid.map Prod.fst == [sampleParent, sampleChild, sampleOther] &&
    waiting == [sampleOther, sampleParent, sampleChild] &&
    valid.all (fun y => relayFee y.1 ≤ y.2) &&
    decide (InTurn testConfig (x.2.activateBestChain testConfig) (x.2.staying testConfig x.1.mp)
      waiting (x.2.unsettled testConfig x.1.mp))

/-- The node before the third block of the branch. -/
def beforeTurn : { x : Option (FullNode × Chainstate) //
    x = beforeReorg turnScript 11 2 ∧ x.any turns = true } :=
  ⟨beforeReorg turnScript 11 2, rfl, by
    rw [beforeReorg_quick]
    decide +kernel⟩

/-- Two blocks with three payments are left for three blocks without: the payments
come back, in another order. -/
theorem reorg_keeps_valid_turn : ∃ (n : FullNode) (s : Chainstate),
    Reached testConfig (fun _ _ => True) n ∧
    (s.stillValid testConfig n.mp).map Prod.fst = [sampleParent, sampleChild, sampleOther] ∧
    s.waiting testConfig n.mp = [sampleOther, sampleParent, sampleChild] ∧
    s.KeepsValid testConfig n.mp := by
  obtain ⟨x, hx, hrun⟩ := beforeTurn
  rw [hx] at hrun
  obtain ⟨⟨n, s⟩, hx, hr⟩ := (Option.any_eq_true _ _).mp hrun
  simp only [turns, Bool.and_eq_true, beq_iff_eq, decide_eq_true_eq, List.all_eq_true] at hr
  obtain ⟨⟨⟨⟨hreorg, hvalid⟩, hwaiting⟩, hpaid⟩, hturn⟩ := hr
  obtain ⟨hn, -⟩ := beforeReorg_some hx
  obtain ⟨htip, hroom⟩ := reorgs_iff hreorg
  exact ⟨n, s, hn, hvalid, hwaiting, (reorg_keeps_valid hn s htip hroom hpaid).1 hturn⟩

/-- The change of the first payment, spent in turn. -/
def sampleRespend : Transaction := sampleSpend samplePayment [0] [49980000000]

/-- Ten blocks, the payment in block 11 and what spends it in block 12; then two
blocks of another branch above block 10. -/
def respendScript : List (FullNode → NodeCmd) :=
  List.replicate 10 (extendTip []) ++
    [extendTip [samplePayment], extendTip [sampleRespend],
      extendSide 10 0 (sampleCoinbase 11) [], extendSide 10 1 (sampleCoinbase 12) []]

/-- A valid transaction is missing. -/
def loses (x : FullNode × Chainstate) : Bool :=
  let m' := (x.2.activateWith (Mempool.callbacks testConfig) testConfig x.1.mp).2
  (x.2.stillValid testConfig x.1.mp).any fun y => relayFee y.1 ≤ y.2 && y.1.txid ∉ m'.byId

/-- The node before the third block of the branch, and what it loses with it. -/
def beforeLoss : { x : Option (FullNode × Chainstate) //
    x = beforeReorg respendScript 10 2 ∧ x.any (fun x => reorgs x && loses x) = true } :=
  ⟨beforeReorg respendScript 10 2, rfl, by
    rw [beforeReorg_quick]
    decide +kernel⟩

/-- The third block of the branch takes both blocks off. The one that spends was
disconnected first, and is refused before the payment it needs is back. -/
theorem reorg_loses_child :
    ¬ ∀ n b s, Reached testConfig (fun _ _ => True) n →
      n.cs.receiveBlock testConfig b true = (s, .ok true) →
      (s.activateBestChain testConfig).tip ≠ s.tip →
      n.mp.demand (s.moves testConfig) ≤ Mempool.maxBytes →
      s.KeepsValid testConfig n.mp := by
  intro hall
  obtain ⟨x, hx, hrun⟩ := beforeLoss
  rw [hx] at hrun
  obtain ⟨⟨n, s⟩, hx, hr⟩ := (Option.any_eq_true _ _).mp hrun
  obtain ⟨hreorg, hlost⟩ := Bool.and_eq_true_iff.mp hr
  obtain ⟨htip, hroom⟩ := reorgs_iff hreorg
  obtain ⟨y, hy, hbad⟩ := List.any_eq_true.mp hlost
  obtain ⟨hfee, hgone⟩ := Bool.and_eq_true_iff.mp hbad
  obtain ⟨hn, b, hb⟩ := beforeReorg_some hx
  have hkeeps := hall n b s hn hb htip hroom
  exact absurd (hkeeps y hy (of_decide_eq_true hfee)) (of_decide_eq_true hgone)

end QuantCore.FullNode
