import QuantCore.Chain.Mempool
import QuantCore.Crypto.Instances
import QuantCore.Proofs.Callbacks
import QuantCore.Proofs.OverlayRun
import QuantCore.Proofs.Steps
import QuantCore.Proofs.Work
import Mathlib.Algebra.GroupWithZero.Nat

/-!
# What the mempool holds

The view is the chain with the entries applied in order, each with the fee on
record, and the books agree with the list. Accepting and rebuilding keep that on
a chainstate that stands still. A call of `activate_best_chain` that moves the
chain leaves the overlay for later, and later comes with the new tip: if the
call ends on another tip, the mempool is sound again. If it returns to the tip it
came from no `on_tip` fires, and all depends on what it has changed on the way.

At the end is a small chain to try this on.
-/

namespace QuantCore

open Maps

variable [Crypto]

/-! ## The property -/

/-- The entries applied in order, each with the fee on record. -/
def replay (height : UInt64) (genesis : Hash256) :
    List MempoolEntry → LedgerView → Option LedgerView
  | [], v => some v
  | e :: es, v =>
      match v.apply e.tx height genesis false with
      | (_, .error _) => none
      | (v', .ok fee) => if fee = e.fee then replay height genesis es v' else none

namespace Mempool

/-- The books of a mempool agree with a list of entries. -/
structure Books (m : Mempool) (entries : List MempoolEntry) : Prop where
  index : ∀ id k, m.byId.lookup id = some k ↔ ∃ e ∈ entries, e.txid = id ∧ e.node = k
  ids : ∀ e ∈ entries, e.txid = e.tx.txid
  txids : (entries.map MempoolEntry.txid).Nodup
  nodes : (entries.map MempoolEntry.node).Nodup
  next : ∀ e ∈ entries, e.node < m.nextNode
  bytes : m.bytes = (entries.map MempoolEntry.size).sum
  sizes : ∀ e ∈ entries, e.size = e.tx.writeFull.length
  spends : entries.Pairwise fun a b => ∀ i ∈ a.tx.ins, ∀ j ∈ b.tx.ins, i.prev ≠ j.prev

/-- The view is what the chain becomes by the entries. -/
def Viewed (cfg : Config) (s : Chainstate) (m : Mempool) : Prop :=
  replay (nextHeight s) cfg.params.genesisHash m.order { base := s.reader } = some (m.viewOn s)

structure Sound (cfg : Config) (s : Chainstate) (m : Mempool) : Prop where
  view : m.Viewed cfg s
  books : m.Books m.order

end Mempool

/-! ## Views -/

theorem LedgerView.apply_base {v v' : LedgerView} {tx : Transaction} {height : UInt64}
    {genesis : Hash256} {verify : Bool} {r : TxResult}
    (h : v.apply tx height genesis verify = (v', r)) : v'.base = v.base := by
  rw [LedgerView.apply] at h
  split at h
  · cases h
    rfl
  · cases h
    exact LedgerView.commit_base ..

omit [Crypto] in
theorem LedgerView.spendInput_spends (v : LedgerView) (o x : OutPoint) :
    (v.spendInput o).spends x = (v.spends x || x == o) := by
  rw [Bool.eq_iff_iff, LedgerView.spendInput]
  split
  · simp only [LedgerView.spends, Finset.mem_insert, Bool.or_eq_true, decide_eq_true_eq,
      beq_iff_eq]
    tauto
  · simp only [LedgerView.spends, AList.mem_insert, Bool.or_eq_true, decide_eq_true_eq,
      beq_iff_eq]
    tauto

omit [Crypto] in
theorem LedgerView.spendInputs_spends (l : List OutPoint) (v : LedgerView) (x : OutPoint) :
    (l.foldl LedgerView.spendInput v).spends x = (v.spends x || l.contains x) := by
  induction l generalizing v with
  | nil => simp
  | cons o l ih =>
      rw [List.foldl_cons, ih, LedgerView.spendInput_spends, List.contains_cons, Bool.or_assoc]

omit [Crypto] in
theorem LedgerView.putPools_spends (l : List (Hash256 × Option Pool)) (v : LedgerView)
    (x : OutPoint) : (v.putPools l).spends x = v.spends x := by
  induction l generalizing v with
  | nil => rfl
  | cons e l ih => exact ih (v.putPool e.1 e.2)

/-- A view's spends are what was spent before and the inputs of the transaction. -/
theorem LedgerView.apply_spends {v v' : LedgerView} {tx : Transaction} {height : UInt64}
    {genesis : Hash256} {verify : Bool} {fee : Amount}
    (h : v.apply tx height genesis verify = (v', .ok fee)) (x : OutPoint) :
    v'.spends x = (v.spends x || (tx.ins.map TxIn.prev).contains x) := by
  rw [LedgerView.apply] at h
  split at h
  · cases h
  · cases h
    rw [LedgerView.commit, LedgerView.putPools_spends]
    exact LedgerView.spendInputs_spends _ v x

theorem replay_append (height : UInt64) (genesis : Hash256) (l r : List MempoolEntry)
    (v : LedgerView) : replay height genesis (l ++ r) v =
      (replay height genesis l v).bind (replay height genesis r) := by
  induction l generalizing v with
  | nil => rfl
  | cons e l ih =>
      rw [List.cons_append, replay, replay]
      split
      · rfl
      · split
        · exact ih _
        · rfl

theorem replay_spends {height : UInt64} {genesis : Hash256} {l : List MempoolEntry}
    {v v' : LedgerView} (h : replay height genesis l v = some v') (x : OutPoint) :
    v'.spends x = (v.spends x || l.any fun e => (e.tx.ins.map TxIn.prev).contains x) := by
  induction l generalizing v with
  | nil =>
      cases h
      simp
  | cons e l ih =>
      rw [replay] at h
      split at h
      · cases h
      · next v₁ fee ha =>
          split at h
          · rw [ih h, LedgerView.apply_spends ha, List.any_cons, Bool.or_assoc]
          · cases h

namespace Mempool

omit [Crypto] in
theorem viewOn_eq {m : Mempool} {s : Chainstate} {v : LedgerView} (hv : m.view = v)
    (hb : v.base = s.reader) : m.viewOn s = v := by
  rw [viewOn, hv, ← hb]

/-! ## The books -/

theorem Books.of_eq {m m' : Mempool} {l : List MempoolEntry} (h : m.Books l)
    (hid : m'.byId = m.byId) (hnext : m'.nextNode = m.nextNode) (hbytes : m'.bytes = m.bytes) :
    m'.Books l where
  index := by rw [hid]; exact h.index
  ids := h.ids
  txids := h.txids
  nodes := h.nodes
  next := by rw [hnext]; exact h.next
  bytes := by rw [hbytes]; exact h.bytes
  sizes := h.sizes
  spends := h.spends

/-- A mempool starts with nothing. -/
theorem books_empty : ({} : Mempool).Books [] where
  index := fun id k => ⟨fun h => (by cases h), fun ⟨e, he, _⟩ => (by cases he)⟩
  ids := fun e he => (by cases he)
  txids := List.nodup_nil
  nodes := List.nodup_nil
  next := fun e he => (by cases he)
  bytes := rfl
  sizes := fun e he => (by cases he)
  spends := List.Pairwise.nil

/-- An entry leaves. -/
theorem Books.erase {m m' : Mempool} {l r : List MempoolEntry} {e : MempoolEntry}
    (h : m.Books (l ++ e :: r)) (hid : m'.byId = m.byId.erase e.txid)
    (hnext : m'.nextNode = m.nextNode) (hbytes : m'.bytes = m.bytes - e.size) :
    m'.Books (l ++ r) := by
  have hsub : (l ++ r).Sublist (l ++ e :: r) :=
    (List.Sublist.refl l).append (List.sublist_cons_self e r)
  have hnd := h.txids
  rw [List.map_append, List.map_cons, List.nodup_middle, ← List.map_append,
    List.nodup_cons] at hnd
  refine
    { ids := fun x hx => h.ids x (hsub.subset hx)
      txids := hnd.2
      nodes := h.nodes.sublist (hsub.map _)
      next := fun x hx => hnext ▸ h.next x (hsub.subset hx)
      sizes := fun x hx => h.sizes x (hsub.subset hx)
      spends := h.spends.sublist hsub
      index := ?_
      bytes := ?_ }
  · intro id k
    rw [hid, lookup_erase_ite]
    split
    · next hk =>
        constructor
        · intro hn
          cases hn
        · rintro ⟨x, hx, hxid, -⟩
          exact absurd (hxid.trans hk ▸ List.mem_map_of_mem hx) hnd.1
    · next hk =>
        rw [h.index]
        constructor
        · rintro ⟨x, hx, hxid, hxk⟩
          rw [List.mem_append, List.mem_cons] at hx
          rcases hx with hx | rfl | hx
          · exact ⟨x, List.mem_append_left r hx, hxid, hxk⟩
          · exact absurd hxid.symm hk
          · exact ⟨x, List.mem_append_right l hx, hxid, hxk⟩
        · rintro ⟨x, hx, hxid, hxk⟩
          exact ⟨x, hsub.subset hx, hxid, hxk⟩
  · rw [hbytes, h.bytes]
    simp only [List.map_append, List.map_cons, List.sum_append, List.sum_cons]
    omega

/-- An entry is applied again, maybe with another fee. -/
theorem Books.refee {m : Mempool} {l r : List MempoolEntry} {e : MempoolEntry}
    (h : m.Books (l ++ e :: r)) (fee : Amount) : m.Books (l ++ { e with fee } :: r) where
  index := by
    intro id k
    rw [h.index]
    simp only [List.mem_append, List.mem_cons]
    constructor
    · rintro ⟨x, hx | rfl | hx, hid, hk⟩
      · exact ⟨x, .inl hx, hid, hk⟩
      · exact ⟨_, .inr (.inl rfl), hid, hk⟩
      · exact ⟨x, .inr (.inr hx), hid, hk⟩
    · rintro ⟨x, hx | rfl | hx, hid, hk⟩
      · exact ⟨x, .inl hx, hid, hk⟩
      · exact ⟨e, .inr (.inl rfl), hid, hk⟩
      · exact ⟨x, .inr (.inr hx), hid, hk⟩
  ids := by
    have hi := h.ids
    rw [List.forall_mem_append, List.forall_mem_cons] at hi ⊢
    exact hi
  txids := by
    have hi := h.txids
    rw [List.map_append, List.map_cons] at hi ⊢
    exact hi
  nodes := by
    have hi := h.nodes
    rw [List.map_append, List.map_cons] at hi ⊢
    exact hi
  next := by
    have hi := h.next
    rw [List.forall_mem_append, List.forall_mem_cons] at hi ⊢
    exact hi
  bytes := by
    rw [h.bytes, List.map_append, List.map_append]
    rfl
  sizes := by
    have hi := h.sizes
    rw [List.forall_mem_append, List.forall_mem_cons] at hi ⊢
    exact hi
  spends := by
    have hi := h.spends
    rw [List.pairwise_append, List.pairwise_cons] at hi ⊢
    refine ⟨hi.1, hi.2.1, fun a ha b hb => ?_⟩
    rcases List.mem_cons.mp hb with rfl | hb
    · exact hi.2.2 a ha e List.mem_cons_self
    · exact hi.2.2 a ha b (List.mem_cons_of_mem e hb)

theorem removeConfirmed_books {m : Mempool} (h : m.Books m.order) (tx : Transaction) :
    (m.removeConfirmed tx).Books (m.removeConfirmed tx).order := by
  rw [removeConfirmed]
  split
  · exact h
  · next k hk =>
      obtain ⟨e, he, hid, rfl⟩ := (h.index _ _).mp hk
      obtain ⟨l, r, hlr⟩ := List.append_of_mem he
      have hnd := h.nodes
      rw [hlr, List.map_append, List.map_cons, List.nodup_middle, ← List.map_append,
        List.nodup_cons] at hnd
      have hkeep : ∀ x ∈ l ++ r, (x.node != e.node) = true := by
        intro x hx
        rw [bne_iff_ne]
        intro hxe
        exact hnd.1 (hxe ▸ List.mem_map_of_mem hx)
      rw [List.forall_mem_append] at hkeep
      have horder : (m.order.filter fun x => x.node != e.node) = l ++ r := by
        rw [hlr, List.filter_append, List.filter_cons_of_neg (by simp),
          List.filter_eq_self.mpr hkeep.1, List.filter_eq_self.mpr hkeep.2]
      have hsize : m.nodeSize e.node = e.size := by
        have hl : l.find? (fun x => x.node == e.node) = none := by
          rw [List.find?_eq_none]
          intro x hx
          simpa using hkeep.1 x hx
        rw [nodeSize, hlr, List.find?_append, hl, Option.none_or,
          List.find?_cons_of_pos (by simp)]
        rfl
      simp only
      rw [horder]
      rw [hlr] at h
      exact h.erase (by rw [hid]) rfl (by rw [hsize])

omit [Crypto] in
theorem removeConfirmed_view [Crypto] (m : Mempool) (tx : Transaction) :
    (m.removeConfirmed tx).view = m.view ∧ (m.removeConfirmed tx).order.Sublist m.order := by
  rw [removeConfirmed]
  split
  · exact ⟨rfl, List.Sublist.refl _⟩
  · exact ⟨rfl, List.filter_sublist⟩

theorem onConnect_books {m : Mempool} (h : m.Books m.order) (b : Block) :
    (m.onConnect b).Books (m.onConnect b).order ∧ (m.onConnect b).view = m.view ∧
      (m.onConnect b).order.Sublist m.order := by
  have hfold : ∀ (txs : List Transaction) (m : Mempool), m.Books m.order →
      (txs.foldl removeConfirmed m).Books (txs.foldl removeConfirmed m).order ∧
        (txs.foldl removeConfirmed m).view = m.view ∧
        (txs.foldl removeConfirmed m).order.Sublist m.order := by
    intro txs
    induction txs with
    | nil => exact fun m h => ⟨h, rfl, List.Sublist.refl _⟩
    | cons tx txs ih =>
        intro m h
        obtain ⟨h₁, h₂, h₃⟩ := ih (m.removeConfirmed tx) (removeConfirmed_books h tx)
        obtain ⟨hv, ho⟩ := m.removeConfirmed_view tx
        exact ⟨h₁, h₂.trans hv, h₃.trans ho⟩
  obtain ⟨h₁, h₂, h₃⟩ := hfold b.txs m h
  exact ⟨h₁.of_eq rfl rfl rfl, h₂, h₃⟩

/-- A transaction of a connected block leaves the list by its id. -/
theorem removeConfirmed_order {m : Mempool} (h : m.Books m.order) (tx : Transaction) :
    (m.removeConfirmed tx).order = m.order.filter (fun e => e.txid != tx.txid) ∧
      (m.removeConfirmed tx).bytes ≤ m.bytes := by
  rw [removeConfirmed]
  cases hl : m.byId.lookup tx.txid with
  | none =>
      refine ⟨(List.filter_eq_self.mpr ?_).symm, le_refl _⟩
      intro e he
      rw [bne_iff_ne]
      intro hid
      have := (h.index tx.txid e.node).mpr ⟨e, he, hid, rfl⟩
      rw [hl] at this
      cases this
  | some k =>
      refine ⟨List.filter_congr ?_, Nat.sub_le _ _⟩
      intro e he
      rw [Bool.eq_iff_iff, bne_iff_ne, bne_iff_ne, not_iff_not]
      obtain ⟨e', he', hid', hk'⟩ := (h.index _ _).mp hl
      constructor
      · intro hk
        rw [List.inj_on_of_nodup_map h.nodes he he' (hk.trans hk'.symm)]
        exact hid'
      · intro hid
        rw [List.inj_on_of_nodup_map h.txids he he' (hid.trans hid'.symm)]
        exact hk'

theorem onConnect_order {m : Mempool} (h : m.Books m.order) (b : Block) :
    (m.onConnect b).order =
        m.order.filter (fun e => !(b.txs.map Transaction.txid).contains e.txid) ∧
      (m.onConnect b).bytes ≤ m.bytes ∧ (m.onConnect b).readd = m.readd := by
  have hfold : ∀ (txs : List Transaction) (m : Mempool), m.Books m.order →
      (txs.foldl removeConfirmed m).order =
          m.order.filter (fun e => !(txs.map Transaction.txid).contains e.txid) ∧
        (txs.foldl removeConfirmed m).bytes ≤ m.bytes ∧
        (txs.foldl removeConfirmed m).readd = m.readd := by
    intro txs
    induction txs with
    | nil => exact fun m _ => ⟨(List.filter_eq_self.mpr (by simp)).symm, le_refl _, rfl⟩
    | cons tx txs ih =>
        intro m h
        obtain ⟨ho, hb, hr⟩ := ih _ (removeConfirmed_books h tx)
        obtain ⟨ho₁, hb₁⟩ := removeConfirmed_order h tx
        have hr₁ : (m.removeConfirmed tx).readd = m.readd := by
          rw [removeConfirmed]
          split <;> rfl
        rw [List.foldl_cons]
        refine ⟨?_, hb.trans hb₁, hr.trans hr₁⟩
        rw [ho, ho₁, List.filter_filter]
        refine List.filter_congr fun e _ => ?_
        rw [List.map_cons, List.contains_cons, Bool.not_or]
        exact Bool.and_comm _ _
  exact hfold b.txs m h

theorem onConnects_books {m : Mempool} (h : m.Books m.order) (bs : List Block) :
    (bs.foldl (fun m b => m.onConnect b) m).Books
      (bs.foldl (fun m b => m.onConnect b) m).order := by
  induction bs generalizing m with
  | nil => exact h
  | cons b bs ih => exact ih (onConnect_books h b).1

/-- Blocks that confirm none of the entries take none away. -/
theorem onConnects_order {m : Mempool} (h : m.Books m.order) {bs : List Block}
    (hfree : ∀ b ∈ bs, ∀ t ∈ b.txs, t.txid ∉ m.order.map MempoolEntry.txid) :
    (bs.foldl (fun m b => m.onConnect b) m).order = m.order := by
  induction bs generalizing m with
  | nil => rfl
  | cons b bs ih =>
      rw [List.forall_mem_cons] at hfree
      have ho : (m.onConnect b).order = m.order := by
        rw [(onConnect_order h b).1, List.filter_eq_self]
        intro e he
        rw [Bool.not_eq_true', ← Bool.not_eq_true, List.contains_iff_mem]
        intro hid
        obtain ⟨t, ht, hte⟩ := List.mem_map.mp hid
        exact hfree.1 t ht (hte ▸ List.mem_map_of_mem he)
      rw [List.foldl_cons, ih (onConnect_books h b).1 (by rw [ho]; exact hfree.2), ho]

/-! ## Rebuilding and accepting -/

/-- The view over an unspent overlay. -/
theorem viewed_nil (cfg : Config) (s : Chainstate) {m : Mempool} (ho : m.order = [])
    (hv : m.view = { base := m.view.base }) : m.Viewed cfg s := by
  rw [Viewed, ho, replay, viewOn, hv]

theorem rebuildEntry_spec {cfg : Config} {s : Chainstate} {m : Mempool} {e : MempoolEntry}
    {r : List MempoolEntry} (h : m.Books (m.order ++ e :: r)) (hv : m.Viewed cfg s) :
    (m.rebuildEntry cfg s e).Books ((m.rebuildEntry cfg s e).order ++ r) ∧
      (m.rebuildEntry cfg s e).Viewed cfg s ∧
      (m.rebuildEntry cfg s e).readd = m.readd := by
  rw [rebuildEntry]
  split
  · exact ⟨h.erase rfl rfl rfl, hv, rfl⟩
  · next v fee ha =>
      refine ⟨?_, ?_, rfl⟩
      · rw [List.append_assoc, List.singleton_append]
        exact (h.refee fee).of_eq rfl rfl rfl
      · have hb : v.base = s.reader := LedgerView.apply_base ha
        rw [Viewed, replay_append, hv, Option.bind_some, replay, ha]
        simp only [if_pos]
        rw [replay, viewOn_eq rfl hb]

/-- What rebuilding does to any mempool with books in order. -/
theorem rebuild_spec (cfg : Config) (s : Chainstate) {m : Mempool} (h : m.Books m.order) :
    (m.rebuild cfg s).Sound cfg s ∧ (m.rebuild cfg s).readd = m.readd := by
  have hfold : ∀ (r : List MempoolEntry) (m : Mempool), m.Books (m.order ++ r) →
      m.Viewed cfg s → (r.foldl (rebuildEntry cfg s) m).Sound cfg s ∧
        (r.foldl (rebuildEntry cfg s) m).readd = m.readd := by
    intro r
    induction r with
    | nil =>
        intro m h hv
        rw [List.append_nil] at h
        exact ⟨⟨hv, h⟩, rfl⟩
    | cons e r ih =>
        intro m h hv
        obtain ⟨h₁, hv₁, hr₁⟩ := rebuildEntry_spec h hv
        obtain ⟨h₂, hr₂⟩ := ih (m.rebuildEntry cfg s e) h₁ hv₁
        exact ⟨h₂, hr₂.trans hr₁⟩
  exact hfold m.order _ (h.of_eq rfl rfl rfl) (viewed_nil cfg s rfl rfl)

theorem checkAccept_ok {cfg : Config} {s : Chainstate} {m : Mempool} {tx : Transaction}
    (h : m.checkAccept cfg s tx = .ok ()) :
    tx.txid ∉ m.byId ∧ ∀ i ∈ tx.ins, (m.viewOn s).spends i.prev = false := by
  rw [checkAccept] at h
  split at h
  · cases h
  · next hid =>
      split at h
      · cases h
      · split at h
        · cases h
        · split at h
          · cases h
          · split at h
            · cases h
            · split at h
              · cases h
              · next hspends =>
                  rw [List.any_eq_true, not_exists] at hspends
                  refine ⟨hid, fun i hi => ?_⟩
                  rw [← Bool.not_eq_true]
                  exact fun hs => hspends i ⟨hi, hs⟩

theorem Books.push {m : Mempool} (h : m.Books m.order) {tx : Transaction}
    (hid : tx.txid ∉ m.byId) (v : LedgerView) (fee : Amount)
    (hspends : ∀ e ∈ m.order, ∀ i ∈ e.tx.ins, ∀ j ∈ tx.ins, i.prev ≠ j.prev) :
    (m.push v tx fee).Books (m.push v tx fee).order := by
  have hnew : ∀ e ∈ m.order, e.txid ≠ tx.txid := by
    intro e he hx
    exact hid (mem_iff_exists.mpr ⟨e.node, (h.index _ _).mpr ⟨e, he, hx, rfl⟩⟩)
  refine
    { ids := ?_, txids := ?_, nodes := ?_, next := ?_, sizes := ?_, spends := ?_, index := ?_
      bytes := ?_ }
  · intro id k
    show (m.byId.insert tx.txid m.nextNode).lookup id = some k ↔
      ∃ e ∈ m.order ++ [_], e.txid = id ∧ e.node = k
    rw [lookup_insert_ite]
    split
    · next hk =>
        constructor
        · intro hs
          cases hs
          exact ⟨_, List.mem_append_right _ (List.mem_singleton.mpr rfl), hk.symm, rfl⟩
        · rintro ⟨e, he, hxid, hxk⟩
          rcases List.mem_append.mp he with he | he
          · exact absurd (hxid.trans hk) (hnew e he)
          · rw [← hxk, List.mem_singleton.mp he]
    · next hk =>
        rw [h.index]
        constructor
        · rintro ⟨e, he, hxid, hxk⟩
          exact ⟨e, List.mem_append_left _ he, hxid, hxk⟩
        · rintro ⟨e, he, hxid, hxk⟩
          rcases List.mem_append.mp he with he | he
          · exact ⟨e, he, hxid, hxk⟩
          · rw [List.mem_singleton.mp he] at hxid
            exact absurd hxid.symm hk
  · exact List.forall_mem_append.mpr ⟨h.ids, List.forall_mem_singleton.mpr rfl⟩
  · show ((m.order ++ [_]).map MempoolEntry.txid).Nodup
    rw [List.map_append]
    refine List.Nodup.append h.txids (List.nodup_singleton _) ?_
    rw [List.map_singleton, List.disjoint_singleton]
    intro hm
    obtain ⟨e, he, hx⟩ := List.mem_map.mp hm
    exact hnew e he hx
  · show ((m.order ++ [_]).map MempoolEntry.node).Nodup
    rw [List.map_append]
    refine List.Nodup.append h.nodes (List.nodup_singleton _) ?_
    rw [List.map_singleton, List.disjoint_singleton]
    intro hm
    obtain ⟨e, he, hx⟩ := List.mem_map.mp hm
    have hlt := h.next e he
    rw [hx] at hlt
    exact absurd hlt (Nat.lt_irrefl _)
  · refine List.forall_mem_append.mpr ⟨fun e he => ?_, List.forall_mem_singleton.mpr ?_⟩
    · exact Nat.lt_succ_of_lt (h.next e he)
    · exact Nat.lt_succ_self _
  · show m.bytes + tx.writeFull.length = ((m.order ++ [_]).map MempoolEntry.size).sum
    rw [h.bytes, List.map_append, List.sum_append]
    rfl
  · exact List.forall_mem_append.mpr ⟨h.sizes, List.forall_mem_singleton.mpr rfl⟩
  · refine List.pairwise_append.mpr ⟨h.spends, List.pairwise_singleton .., ?_⟩
    intro e he x hx
    rw [List.mem_singleton.mp hx]
    exact hspends e he

theorem acceptClean_sound {cfg : Config} {s : Chainstate} {m : Mempool} (h : m.Sound cfg s)
    (tx : Transaction) : (m.acceptClean cfg s tx).1.Sound cfg s := by
  rw [acceptClean]
  split
  · exact h
  · next hc =>
      obtain ⟨hid, hfree⟩ := checkAccept_ok hc
      split
      · exact h
      · next v fee ha =>
          have hb : v.base = s.reader := LedgerView.apply_base ha
          refine ⟨?_, h.books.push hid v fee ?_⟩
          · show replay _ _ (m.order ++ [_]) _ = _
            rw [replay_append, h.view, Option.bind_some, replay, ha]
            simp only [if_pos]
            exact congrArg some (@viewOn_eq (m.push v tx fee) s v rfl hb).symm
          · -- what an entry spends is spent in the view, and the inputs are not
            intro e he i hi j hj heq
            have hspent : (m.viewOn s).spends i.prev = true := by
              rw [replay_spends h.view, Bool.or_eq_true, List.any_eq_true]
              exact .inr ⟨e, he, List.contains_iff_mem.mpr (List.mem_map_of_mem hi)⟩
            rw [heq, hfree j hj] at hspent
            cases hspent

theorem accept_sound {cfg : Config} {s : Chainstate} {m : Mempool} (h : m.Sound cfg s)
    (tx : Transaction) : (m.accept cfg s tx).1.Sound cfg s := by
  rw [accept]
  split
  · exact acceptClean_sound (rebuild_spec cfg s h.books).1 tx
  · exact acceptClean_sound h tx

/-- At a new tip the overlay is made afresh. -/
theorem onTip_sound {cfg : Config} {s : Chainstate} {m : Mempool} (h : m.Books m.order)
    (hd : m.dirty = true) : (m.onTip cfg s).Sound cfg s := by
  have hfold : ∀ (txs : List Transaction) (m : Mempool), m.Sound cfg s →
      (txs.foldl (fun m tx => (m.accept cfg s tx).1) m).Sound cfg s := by
    intro txs
    induction txs with
    | nil => exact fun m h => h
    | cons tx txs ih => exact fun m h => ih _ (accept_sound h tx)
  have hr := (rebuild_spec cfg s h).1
  rw [onTip, if_pos hd]
  exact hfold _ _ ⟨hr.view, hr.books.of_eq rfl rfl rfl⟩

/-! ## Activation -/

omit [Crypto] in
/-- What the view is compared with. -/
theorem Viewed.congr [Crypto] {cfg : Config} {s s' : Chainstate} {m m' : Mempool}
    (h : m.Viewed cfg s) (hr : s'.reader = s.reader) (hh : s'.height = s.height)
    (ho : m'.order = m.order) (hv : m'.view = m.view) : m'.Viewed cfg s' := by
  rw [Viewed, nextHeight, viewOn] at h ⊢
  rw [hr, hh, ho, hv]
  exact h

omit [Crypto] in
theorem Sound.of_eq [Crypto] {cfg : Config} {s s' : Chainstate} {m : Mempool}
    (h : m.Sound cfg s) (hr : s'.reader = s.reader) (hc : s'.chain = s.chain) :
    m.Sound cfg s' :=
  ⟨h.view.congr hr (by rw [Chainstate.height, hc]; rfl) rfl rfl, h.books⟩

end Mempool

/-- Hears whether any block comes or goes. -/
def movement : Callbacks Bool := ⟨fun _ _ => true, fun _ _ _ => true, fun _ t => t⟩

/-- What the two listeners hold during a call that starts with `m₀` on `s₀`: the
books stay in order, and from the first movement on the mempool is dirty. -/
structure Moving (s₀ : Chainstate) (m₀ : Mempool) (s : Chainstate) (m : Mempool)
    (moved : Bool) : Prop where
  books : m.Books m.order
  view : m.view = m₀.view
  order : m.order.Sublist m₀.order
  dirty : moved = true → m.dirty = true
  still : moved = false → m = m₀ ∧ s.reader = s₀.reader ∧ s.chain = s₀.chain

theorem moving_related (cfg : Config) (s₀ : Chainstate) (m₀ : Mempool) :
    (Mempool.callbacks cfg).Related cfg movement (Moving s₀ m₀) where
  quiet := fun h hr hc =>
    { h with
      still := fun ht => ⟨(h.still ht).1, hr.trans (h.still ht).2.1, hc.trans (h.still ht).2.2⟩ }
  connect := by
    intro s idx b v m moved _ h
    obtain ⟨hb, hv, ho⟩ := Mempool.onConnect_books h.books b
    exact ⟨hb, hv.trans h.view, ho.trans h.order, fun _ => rfl, fun ht => (by cases ht)⟩
  disconnect := fun h =>
    ⟨h.books.of_eq rfl rfl rfl, h.view, h.order, fun _ => rfl, fun ht => (by cases ht)⟩

theorem activateLoopWith_moving (cfg : Config) (s : Chainstate) {m : Mempool}
    (h : m.Books m.order) : ∃ s₁ m₁ moved, Chainstate.activateLoopWith (Mempool.callbacks cfg) cfg
      Chainstate.activateGuard s m = (s₁, m₁) ∧ Moving s m s₁ m₁ moved := by
  have hstart : Moving s m s m false :=
    ⟨h, rfl, List.Sublist.refl _, fun ht => (by cases ht), fun _ => ⟨rfl, rfl, rfl⟩⟩
  obtain ⟨s₁, m₁, moved, h₁, -, hm⟩ := Chainstate.activateLoopWith_related
    (moving_related cfg s m) Chainstate.activateGuard hstart
  exact ⟨s₁, m₁, moved, h₁, hm⟩

/-- A call that ends on another tip leaves the mempool sound. One that ends on the
tip it started from does, if the view is right as it stands. -/
theorem activateWith_sound {cfg : Config} {s : Chainstate} {m : Mempool} (h : m.Books m.order)
    (hback : (s.activateBestChain cfg).tip = s.tip →
      (Chainstate.activateLoopWith (Mempool.callbacks cfg) cfg Chainstate.activateGuard s m).2.Viewed
        cfg (s.activateBestChain cfg)) :
    (s.activateWith (Mempool.callbacks cfg) cfg m).2.Sound cfg
      (s.activateWith (Mempool.callbacks cfg) cfg m).1 := by
  obtain ⟨s₁, m₁, moved, h₁, hm⟩ := activateLoopWith_moving cfg s h
  have hchain : s.activateBestChain cfg = s₁.dropCandidates := by
    rw [Chainstate.activateBestChain,
      ← Chainstate.activateLoopWith_fst (Mempool.callbacks cfg) cfg _ s m, h₁]
  rw [hchain, h₁] at hback
  rw [Chainstate.activateWith, h₁]
  simp only
  split
  · next htip =>
      cases moved with
      | true => exact Mempool.onTip_sound hm.books (hm.dirty rfl)
      | false =>
          refine absurd ?_ htip
          show s₁.chain.getLastD 0 = s.chain.getLastD 0
          rw [(hm.still rfl).2.2]
  · next htip => exact ⟨hback (not_not.mp htip), hm.books⟩

/-- Where nothing is pending a call may do what it likes. -/
theorem activateWith_empty (cfg : Config) (s : Chainstate) {m : Mempool} (h : m.Books m.order)
    (ho : m.order = []) (hv : m.view = { base := m.view.base }) :
    (s.activateWith (Mempool.callbacks cfg) cfg m).2.Sound cfg
      (s.activateWith (Mempool.callbacks cfg) cfg m).1 := by
  refine activateWith_sound h fun _ => ?_
  obtain ⟨s₁, m₁, moved, h₁, hm⟩ := activateLoopWith_moving cfg s h
  have hnil : m₁.order = [] := List.sublist_nil.mp (ho ▸ hm.order)
  rw [h₁]
  exact Mempool.viewed_nil cfg _ hnil (by rw [hm.view]; exact hv)

/-! ## Runs -/

namespace Chainstate

/-- Taking in a header changes no coin, and not the chain. -/
theorem acceptHeader_still {cfg : Config} {s s' : Chainstate} {h : BlockHeader}
    {r : HeaderResult} (hr : s.acceptHeader cfg h = (s', r)) :
    s'.reader = s.reader ∧ s'.chain = s.chain := by
  rcases acceptHeader_cases hr with ⟨rfl, -⟩ | ⟨-, -, -, -, rfl⟩
  · exact ⟨rfl, rfl⟩
  · rw [addIndex_eq]
    exact ⟨rfl, rfl⟩

omit [Crypto] in
theorem FlagsOnly.reader {s s' : Chainstate} (h : FlagsOnly s s') : s'.reader = s.reader := by
  rw [h.rest]
  rfl

omit [Crypto] in
theorem stored_reader (s : Chainstate) (idx : Hash256) (b : Block) (w : Bool) :
    (s.stored idx b w).reader = s.reader := by
  have hm := modify_eq s idx fun i => { i with
    dataPos := s.disk.blocks.length
    dataLen := (UInt32.ofNat b.coreBytes.length).toNat, haveData := true }
  rw [stored]
  simp only
  rw [hm]
  rfl

/-- Nor does taking in a block, before anything is activated. -/
theorem receiveBlock_still {cfg : Config} {s s' : Chainstate} {b : Block} {w : Bool}
    {r : Except String Bool} (hr : s.receiveBlock cfg b w = (s', r)) :
    s'.reader = s.reader ∧ s'.chain = s.chain := by
  obtain ⟨s₁, hres, ha, hb⟩ := receiveBlock_cases hr
  obtain ⟨hr₁, hc₁⟩ := acceptHeader_still ha
  rcases hb with ⟨-, hb⟩ | ⟨-, rfl, -⟩
  · have hbody : s'.reader = s₁.reader ∧ s'.chain = s₁.chain := by
      rcases receiveBody_cases hb with ⟨rfl, -⟩ | ⟨-, -, -, rfl, -⟩ | ⟨-, -, s₂, done, hs, h⟩
      · exact ⟨rfl, rfl⟩
      · exact ⟨rfl, rfl⟩
      · have hstore : s₂.reader = s₁.reader ∧ s₂.chain = s₁.chain := by
          rcases storeBlock_cases hs with ⟨-, rfl, -⟩ | ⟨-, -, rfl⟩
          · exact ⟨rfl, rfl⟩
          · refine ⟨stored_reader s₁ _ b _, ?_⟩
            exact (sameTree_modify s₁ b.header.hash (f := fun i => { i with
              dataPos := s₁.disk.blocks.length
              dataLen := (UInt32.ofNat b.coreBytes.length).toNat, haveData := true })
              fun _ => rfl).chain
        rcases h with ⟨-, rfl, -⟩ | ⟨-, rfl, -⟩
        · exact hstore
        · have hf := updateChainData_flagsOnly s₂ b.header.hash
          exact ⟨hf.reader.trans hstore.1, hf.sameTree.chain.trans hstore.2⟩
    exact ⟨hbody.1.trans hr₁, hbody.2.trans hc₁⟩
  · exact ⟨hr₁, hc₁⟩

end Chainstate

namespace FullNode

theorem start_sound {cfg : Config} {disk : Disk} {tick : Nat} {n : FullNode}
    (h : start cfg disk tick = .ok n) : n.mp.Sound cfg n.cs := by
  rw [start] at h
  cases hl : Chainstate.loadReady cfg disk tick with
  | error e =>
      rw [hl] at h
      cases h
  | ok s =>
      rw [hl] at h
      cases h
      exact activateWith_empty cfg s Mempool.books_empty rfl rfl

/-! ## Scripts -/

/-- Commands that may depend on the state they are given in. -/
def runScript (cfg : Config) : List (FullNode → NodeCmd) → FullNode → Except String FullNode
  | [], n => .ok n
  | c :: rest, n => (n.run cfg (c n)).bind (runScript cfg rest)

theorem reached_runScript {cfg : Config} {script : List (FullNode → NodeCmd)} {n n' : FullNode}
    (hn : Reached cfg (fun _ _ => True) n) (h : runScript cfg script n = .ok n') :
    Reached cfg (fun _ _ => True) n' := by
  induction script generalizing n with
  | nil =>
      cases h
      exact hn
  | cons c rest ih =>
      rw [runScript] at h
      cases hr : n.run cfg (c n) with
      | error e =>
          rw [hr] at h
          cases h
      | ok n₁ =>
          rw [hr] at h
          exact ih (.run hn trivial hr) h

/-- The state after a script from an empty data directory. -/
def runFresh (cfg : Config) (script : List (FullNode → NodeCmd)) : Except String FullNode :=
  (start cfg {} 0).bind (runScript cfg script)

theorem reached_runFresh {cfg : Config} {script : List (FullNode → NodeCmd)} {n : FullNode}
    (h : runFresh cfg script = .ok n) : Reached cfg (fun _ _ => True) n := by
  rw [runFresh] at h
  cases hs : start cfg {} 0 with
  | error e =>
      rw [hs] at h
      cases h
  | ok n₀ =>
      rw [hs] at h
      exact reached_runScript (.start hs) h

/-- `run`, dividing once for a block's work. -/
def quickRun (cfg : Config) (n : FullNode) : NodeCmd → Except String FullNode
  | .block b w => .ok (thenActivate cfg n.mp (n.cs.quickBlock cfg b w))
  | .accept tx => n.run cfg (.accept tx)
  | .header h => n.run cfg (.header h)
  | .snapshot x => n.run cfg (.snapshot x)
  | .flush => n.run cfg .flush
  | .restart => n.run cfg .restart

theorem run_quick (cfg : Config) (n : FullNode) (c : NodeCmd) :
    n.run cfg c = n.quickRun cfg c := by
  cases c with
  | block b w => rw [run, quickRun, Chainstate.receiveBlock_quick]
  | accept tx => rfl
  | header h => rfl
  | snapshot x => rfl
  | flush => rfl
  | restart => rfl

def quickScript (cfg : Config) : List (FullNode → NodeCmd) → FullNode → Except String FullNode
  | [], n => .ok n
  | c :: rest, n => (n.quickRun cfg (c n)).bind (quickScript cfg rest)

theorem runScript_quick (cfg : Config) (script : List (FullNode → NodeCmd)) (n : FullNode) :
    runScript cfg script n = quickScript cfg script n := by
  induction script generalizing n with
  | nil => rfl
  | cons c rest ih =>
      rw [runScript, quickScript, run_quick]
      congr 1
      funext n'
      exact ih n'

def quickStart (cfg : Config) : Except String FullNode :=
  (Chainstate.quickLoad cfg {} 0).map fun s => thenActivate cfg {} (s, .ok true)

theorem start_quick (cfg : Config) : start cfg {} 0 = quickStart cfg := by
  rw [start, quickStart, Chainstate.loadReady_quick]

def quickFresh (cfg : Config) (script : List (FullNode → NodeCmd)) : Except String FullNode :=
  (quickStart cfg).bind (quickScript cfg script)

theorem runFresh_quick (cfg : Config) (script : List (FullNode → NodeCmd)) :
    runFresh cfg script = quickFresh cfg script := by
  rw [runFresh, quickFresh, start_quick]
  congr 1
  funext n
  exact runScript_quick cfg script n

/-- A block on top of `prev`, with the difficulty the node asks for. -/
def mined (cfg : Config) (n : FullNode) (prev : Hash256) (nonce : UInt64)
    (txs : List Transaction) : Block :=
  let b : Block := { txs }
  { b with header :=
      { prev, nonce, time := (n.cs.entry prev).header.time + 120
        bits := n.cs.nextBitsFor cfg.params prev
        merkleRoot := b.computeMerkleRoot, witnessRoot := b.computeWitnessRoot } }

end FullNode

end QuantCore

namespace QuantCore.FullNode

attribute [local instance] stampCrypto

/-! ## A payment -/

def testConfig : Config := ⟨.test, false, ⟨fun _ _ => false, fun _ => 1792900000⟩⟩

def sampleKey : Bytes := List.replicate falconPkBytes 0

/-- What the miner of block 1 is paid. -/
def sampleReward : TxOut := ⟨50000000000, qntAsset, addressHash sampleKey⟩

def sampleCoinbase (height : Nat) : Transaction :=
  { lockHeight := UInt64.ofNat height, outs := if height = 1 then [sampleReward] else [] }

/-- The payment spends the reward. -/
def samplePayment : Transaction where
  ins := [⟨⟨(sampleCoinbase 1).txid, 0⟩⟩]
  outs := [⟨49990000000, qntAsset, addressHash sampleKey⟩]
  witness := [.falcon sampleKey [1]]

/-- The next block of the active chain. -/
def extendTip (txs : List Transaction) (n : FullNode) : NodeCmd :=
  .block (mined testConfig n n.cs.tip 0 (sampleCoinbase (n.cs.height + 1) :: txs)) true

/-- The youngest child of a block. -/
def youngest (s : Chainstate) (h : Hash256) : Hash256 := (s.entry h).children.getLastD 0

/-- The block `k + 1` steps above block `base` on a side branch. -/
def sideBlock (base k : Nat) (cb : Transaction) (txs : List Transaction) (n : FullNode) : Block :=
  mined testConfig n ((youngest n.cs)^[k] ((n.cs.atHeight base).getD 0)) 1 (cb :: txs)

def extendSide (base k : Nat) (cb : Transaction) (txs : List Transaction) (n : FullNode) :
    NodeCmd :=
  .block (sideBlock base k cb txs n) true

end QuantCore.FullNode
