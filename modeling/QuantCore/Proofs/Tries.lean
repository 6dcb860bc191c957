import QuantCore.Proofs.Footprint
import QuantCore.Proofs.Mempool
import QuantCore.Proofs.Unsigned

/-!
# In which order they come back

At a new tip the entries that stayed are applied again, and then what was read
back of the disconnected blocks has to be accepted anew, last block first. What
would be valid in the order of the old chain is tried in another order here.

That does no harm as long as no two transactions that touch change places, and it
does harm where a transaction is tried before what it spends is there.
-/

namespace QuantCore

open Maps Turns

variable [Crypto]

/-! ## What should come back -/

/-- Apply in order and skip what fails: what is accepted, with its fee. The
signatures of what has stayed in the mempool were checked when it came. -/
def acceptedIn (height : UInt64) (genesis : Hash256) (stay : List Transaction) :
    List Transaction → LedgerView → List (Transaction × Amount)
  | [], _ => []
  | t :: ts, v =>
      match v.apply t height genesis (!stay.contains t) with
      | (_, .error _) => acceptedIn height genesis stay ts v
      | (v', .ok fee) => (t, fee) :: acceptedIn height genesis stay ts v'

omit [Crypto] in
def relayFee (t : Transaction) : Amount :=
  UInt64.ofNat t.writeFull.length * minRelayFeePerKb / 1000

/-! ## What the code takes -/

/-- What `accept` asks of a transaction alone: its form, its size, and that the
chain does not have it. -/
def admits (s : Chainstate) (t : Transaction) : Bool :=
  (checkTxBasic t true).toOption.isSome && t.writeFull.length ≤ Mempool.maxTxSize &&
    t.txid ∉ s.txindex

/-- The mempool takes `t` on top of a view that holds `ids`. -/
def takes (cfg : Config) (s : Chainstate) (v : LedgerView) (ids : List Hash256)
    (t : Transaction) : Bool :=
  !ids.contains t.txid && admits s t && (t.ins.all fun i => !v.spends i.prev) &&
    (v.apply t (Mempool.nextHeight s) cfg.params.genesisHash true).2.toOption.any
      fun fee => relayFee t ≤ fee

/-- One more try at the new tip. A pending entry is applied again; what was read
back of a block has to be accepted anew. -/
def retry (cfg : Config) (s : Chainstate) :
    Transaction × Bool → LedgerView × List Hash256 → Option (LedgerView × List Hash256)
  | (t, false), (v, ids) =>
      if ids.contains t.txid then none
      else
        match v.apply t (Mempool.nextHeight s) cfg.params.genesisHash false with
        | (_, .error _) => none
        | (v', .ok _) => some (v', ids ++ [t.txid])
  | (t, true), (v, ids) =>
      if takes cfg s v ids t then
        some ((v.apply t (Mempool.nextHeight s) cfg.params.genesisHash true).1, ids ++ [t.txid])
      else none

/-- The order of the tries: the entries that stay, then what was read back. -/
def tries (stay back : List Transaction) : List (Transaction × Bool) :=
  stay.map (fun t => (t, false)) ++ back.map fun t => (t, true)

/-- The ids the mempool holds in the end. -/
def comeback (cfg : Config) (s : Chainstate) (stay back : List Transaction) : List Hash256 :=
  (run (retry cfg s) (tries stay back) ({ base := s.reader }, [])).2

/-- What is valid in the order of the old chain. -/
def validIn (cfg : Config) (s' : Chainstate) (stay L : List Transaction) :
    List (Transaction × Amount) :=
  acceptedIn (Mempool.nextHeight s') cfg.params.genesisHash stay L { base := s'.reader }

/-- The order of the tries does not go against that of `L`: what is valid there is
tried, and what comes before a transaction of `L` and touches it comes before it in
`L` too. -/
structure InTurn (cfg : Config) (s' : Chainstate) (stay back L : List Transaction) : Prop where
  distinct : (L.map Transaction.txid).Nodup
  tried : ∀ x ∈ validIn cfg s' stay L, x.1 ∈ stay ∨ x.1 ∈ back.filter (admits s')
  order : (tries stay (back.filter (admits s'))).Pairwise fun r b =>
    b.1 ∈ L → r.1 ≠ b.1 → Touch Transaction.cells r.1 b.1 → Before L r.1 b.1

instance (cfg : Config) (s : Chainstate) (stay back L : List Transaction) :
    Decidable (InTurn cfg s stay back L) :=
  decidable_of_iff ((L.map Transaction.txid).Nodup ∧
    (∀ x ∈ validIn cfg s stay L, x.1 ∈ stay ∨ x.1 ∈ back.filter (admits s)) ∧
    (tries stay (back.filter (admits s))).Pairwise fun r b =>
      b.1 ∈ L → r.1 ≠ b.1 → Touch Transaction.cells r.1 b.1 → Before L r.1 b.1)
    ⟨fun ⟨h₁, h₂, h₃⟩ => ⟨h₁, h₂, h₃⟩, fun h => ⟨h.distinct, h.tried, h.order⟩⟩

/-- Whenever a transaction of this id is tried, it spends what neither the new chain
has nor anything that was tried before it makes. -/
def Orphaned (s' : Chainstate) (stay back : List Transaction) (id : Hash256) : Prop :=
  ∀ r ∈ tries stay back, r.1.txid = id → ∃ o ∈ r.1.ins.map TxIn.prev,
    s'.reader.coin o = none ∧ ∀ a, Before (tries stay back) a r → a.1.txid ≠ o.txid

/-! ## One try -/

variable {cfg : Config} {s : Chainstate} {v : LedgerView} {ids : List Hash256}
  {stay back L : List Transaction} {t : Transaction}

/-- A try that succeeds puts the id into the list, and writes what `commit` writes. -/
theorem retry_some {a : Transaction × Bool} {st : LedgerView × List Hash256}
    (h : retry cfg s a (v, ids) = some st) : a.1.txid ∉ ids ∧ ∃ ops fee,
      checkTx v.reader a.1 (Mempool.nextHeight s) cfg.params.genesisHash a.2 = .ok (ops, fee) ∧
      st = (v.commit a.1 (Mempool.nextHeight s) ops, ids ++ [a.1.txid]) := by
  obtain ⟨t, again⟩ := a
  have happly : ∀ {again : Bool} {v' : LedgerView} {fee : Amount},
      v.apply t (Mempool.nextHeight s) cfg.params.genesisHash again = (v', .ok fee) →
      ∃ ops fee, checkTx v.reader t (Mempool.nextHeight s) cfg.params.genesisHash again =
        .ok (ops, fee) ∧ (v', ids ++ [t.txid]) =
          (v.commit t (Mempool.nextHeight s) ops, ids ++ [t.txid]) := by
    intro again v' fee h
    rw [LedgerView.apply] at h
    split at h
    · cases h
    · next ops fee hcheck =>
        cases h
        exact ⟨ops, fee, hcheck, rfl⟩
  cases again with
  | false =>
      rw [retry] at h
      split at h
      · cases h
      next hid =>
      rw [List.contains_iff_mem] at hid
      split at h
      · cases h
      next v' fee ha =>
      cases h
      exact ⟨hid, happly ha⟩
  | true =>
      rw [retry] at h
      split at h
      · next htakes =>
          simp only [takes, Bool.and_eq_true, Bool.not_eq_true', ← Bool.not_eq_true,
            List.contains_iff_mem] at htakes
          obtain ⟨⟨⟨hid, -⟩, -⟩, hok⟩ := htakes
          cases h
          refine ⟨hid, ?_⟩
          cases ha : v.apply t (Mempool.nextHeight s) cfg.params.genesisHash true with
          | mk v' r =>
              cases r with
              | error e =>
                  rw [ha] at hok
                  cases hok
              | ok fee => exact happly ha
      · cases h

/-- Views that hold the same in the cells of a transaction try it alike. -/
theorem retry_isSome {v' : LedgerView} {ids' : List Hash256} {a : Transaction × Bool}
    (h : ∀ k ∈ a.1.cells, held (v, ids) k = held (v', ids') k) :
    (retry cfg s a (v, ids)).isSome = (retry cfg s a (v', ids')).isSome := by
  obtain ⟨t, again⟩ := a
  have hid : ids.contains t.txid = ids'.contains t.txid := by
    have := h _ (cells_txid t)
    rwa [held, held, Held.txid.injEq] at this
  have hcheck := fun verify => @LedgerView.apply_agree _ v v' ids ids' t
    (Mempool.nextHeight s) cfg.params.genesisHash verify h
  have hverdict : ∀ verify, (v.apply t (Mempool.nextHeight s) cfg.params.genesisHash verify).2 =
      (v'.apply t (Mempool.nextHeight s) cfg.params.genesisHash verify).2 := by
    intro verify
    rw [LedgerView.apply, LedgerView.apply, hcheck verify]
    split <;> rfl
  cases again with
  | false =>
      have hv := hverdict false
      simp only [retry, hid]
      split
      · rfl
      · split <;> split <;> simp_all
  | true =>
      have hspends : (t.ins.all fun i => !v.spends i.prev) =
          t.ins.all fun i => !v'.spends i.prev := by
        rw [Bool.eq_iff_iff, List.all_eq_true, List.all_eq_true]
        refine forall₂_congr fun i hi => ?_
        rw [(LedgerView.coin_agree (h _ (cells_input (List.mem_map_of_mem hi)))).2]
      have htakes : takes cfg s v ids t = takes cfg s v' ids' t := by
        rw [takes, takes, hid, hspends, hverdict true]
      rw [retry, retry, htakes]
      split <;> rfl

/-- A try is decided by the cells of its transaction, and changes no others. -/
theorem retry_local (cfg : Config) (s : Chainstate) :
    Local held (fun a : Transaction × Bool => a.1.cells) (retry cfg s) where
  frame := by
    rintro a ⟨v, ids⟩ st hst k hk
    obtain ⟨-, ops, fee, hcheck, rfl⟩ := retry_some hst
    have hcommit := @LedgerView.commit_frame _ v ids _ a.1 _ _ _ _ _ hcheck hk
    cases k with
    | coin o => exact hcommit
    | token t => exact hcommit
    | txid x =>
        have hx : x ≠ a.1.txid := fun he => hk (he ▸ cells_txid a.1)
        simp [held, hx]
  agree := by
    rintro a ⟨v, ids⟩ ⟨v', ids'⟩ h
    have hsome := @retry_isSome _ cfg s v ids v' ids' a h
    cases hst : retry cfg s a (v, ids) with
    | none =>
        rw [hst, Option.isSome_none, eq_comm, Option.isSome_eq_false_iff,
          Option.isNone_iff_eq_none] at hsome
        rw [hsome]
        exact .none
    | some st =>
        rw [hst, Option.isSome_some, eq_comm, Option.isSome_iff_exists] at hsome
        obtain ⟨st', hst'⟩ := hsome
        rw [hst']
        refine .some fun k hk => ?_
        obtain ⟨-, ops, fee, hcheck, rfl⟩ := retry_some hst
        obtain ⟨-, ops', fee', hcheck', rfl⟩ := retry_some hst'
        rw [LedgerView.apply_agree _ _ h, hcheck'] at hcheck
        cases hcheck
        have hk := h k hk
        cases k with
        | coin o => exact LedgerView.commit_cell a.1 _ ops hk
        | token t => exact LedgerView.commit_cell a.1 _ ops hk
        | txid x =>
            rw [held, held, Held.txid.injEq] at hk ⊢
            simp only [List.contains_append, hk]

/-- Once its id is in the list a transaction is refused. -/
theorem retry_dup {a b : Transaction × Bool} {st st' : LedgerView × List Hash256}
    (h : retry cfg s a st = some st') (hb : b.1 = a.1) : retry cfg s b st' = none := by
  obtain ⟨v, ids⟩ := st
  obtain ⟨-, ops, fee, -, rfl⟩ := retry_some h
  cases hr : retry cfg s b (v.commit a.1 (Mempool.nextHeight s) ops, ids ++ [a.1.txid]) with
  | none => rfl
  | some st' =>
      refine absurd ?_ (retry_some hr).1
      rw [hb]
      exact List.mem_append_right _ List.mem_cons_self

/-- What is refused without its signatures is refused with them. -/
theorem retry_strict {st : LedgerView × List Hash256} (h : retry cfg s (t, false) st = none) :
    retry cfg s (t, true) st = none := by
  obtain ⟨v, ids⟩ := st
  cases hr : retry cfg s (t, true) (v, ids) with
  | none => rfl
  | some st' =>
      obtain ⟨hid, ops, fee, hcheck, -⟩ := retry_some hr
      rw [retry, if_neg (by rwa [List.contains_iff_mem]), LedgerView.apply,
        checkTx_verify hcheck] at h
      cases h

theorem run_ids (l : List (Transaction × Bool)) (st : LedgerView × List Hash256) :
    (run (retry cfg s) l st).2 =
      st.2 ++ (taken (retry cfg s) l st).map fun a => a.1.txid := by
  induction l generalizing st with
  | nil => exact (List.append_nil _).symm
  | cons a l ih =>
      rw [run_cons, ih]
      cases hr : retry cfg s a st with
      | none =>
          rw [taken_none hr]
          rfl
      | some st' =>
          obtain ⟨v, ids⟩ := st
          obtain ⟨-, ops, fee, -, rfl⟩ := retry_some hr
          rw [taken_some hr, List.map_cons]
          simp

/-! ## In the order of the old chain -/

/-- The coins a view has made, also those spent again, are those of the listed
transactions, and none is both there and spent. -/
structure Listed (v : LedgerView) (ids : List Hash256) : Prop where
  created : ∀ o ∈ v.created, o.txid ∈ ids ∧ o ∉ v.spentCreated
  spent : ∀ o ∈ v.spentCreated, o.txid ∈ ids

omit [Crypto] in
theorem listed_mk (r : StateReader) : Listed { base := r } [] where
  created := fun o ho => absurd ho (AList.notMem_empty o)
  spent := fun o ho => absurd ho (Finset.notMem_empty o)

omit [Crypto] in
theorem Listed.spendInputs (h : Listed v ids) (ins : List OutPoint) :
    Listed (ins.foldl LedgerView.spendInput v) ids := by
  induction ins generalizing v with
  | nil => exact h
  | cons o ins ih =>
      refine ih ?_
      rw [LedgerView.spendInput]
      split
      · next ho =>
          refine ⟨fun x hx => ?_, fun x hx => ?_⟩
          · obtain ⟨hne, hx⟩ := AList.mem_erase.mp hx
            refine ⟨(h.created x hx).1, fun hs => ?_⟩
            rcases Finset.mem_insert.mp hs with he | hs
            · exact hne he
            · exact (h.created x hx).2 hs
          · rcases Finset.mem_insert.mp hx with rfl | hx
            · exact (h.created x ho).1
            · exact h.spent x hx
      · exact ⟨h.created, h.spent⟩

theorem Listed.commit (h : Listed v ids) (hid : t.txid ∉ ids) (height : UInt64) (ops : OpState) :
    Listed (v.commit t height ops) (ids ++ [t.txid]) := by
  have hputs : ∀ (ts : List (Hash256 × Option Pool)) (v : LedgerView),
      (v.putPools ts).created = v.created ∧ (v.putPools ts).spentCreated = v.spentCreated := by
    intro ts
    induction ts with
    | nil => exact fun v => ⟨rfl, rfl⟩
    | cons e ts ih => exact fun v => ih (v.putPool e.1 e.2)
  have hspend := h.spendInputs (t.ins.map TxIn.prev)
  rw [LedgerView.commit]
  constructor
  · intro o ho
    rw [(hputs _ _).1] at ho
    rw [(hputs _ _).2, List.mem_append, List.mem_singleton]
    rcases mem_of_mem_insertAll ho with ho | ho
    · have htxid := LedgerView.map_fst_newCoins ho
      exact ⟨.inr htxid, fun hs => hid (htxid ▸ hspend.spent o hs)⟩
    · exact ⟨.inl (hspend.created o ho).1, (hspend.created o ho).2⟩
  · intro o ho
    rw [(hputs _ _).2] at ho
    exact List.mem_append_left _ (hspend.spent o ho)

/-- What is accepted spends nothing that is spent. -/
theorem Listed.free (h : Listed v ids) {height : UInt64} {genesis : Hash256} {verify : Bool}
    {x : OpState × Amount} (hok : checkTx v.reader t height genesis verify = .ok x) :
    (t.ins.all fun i => !v.spends i.prev) = true := by
  rw [List.all_eq_true]
  intro i hi
  have hcoin : (v.coin i.prev).isSome := checkTx_inputs hok _ (List.mem_map_of_mem hi)
  rw [LedgerView.coin] at hcoin
  rw [LedgerView.spends, Bool.not_eq_true', ← Bool.not_eq_true, Bool.or_eq_true,
    decide_eq_true_eq, decide_eq_true_eq, not_or]
  split at hcoin
  · cases hcoin
  next hbase =>
  refine ⟨hbase, fun hs => ?_⟩
  split at hcoin
  · next c hc =>
      have hin : i.prev ∈ v.created := mem_iff_exists.mpr ⟨c, hc⟩
      exact (h.created _ hin).2 hs
  · rw [if_pos hs] at hcoin
    cases hcoin

/-- How a transaction of `L` is tried. -/
def asked (stay : List Transaction) (t : Transaction) : Transaction × Bool :=
  (t, !stay.contains t)

omit [Crypto] in
theorem asked_of_mem (h : t ∈ stay) : asked stay t = (t, false) := by
  rw [asked, List.contains_iff_mem.mpr h]
  rfl

omit [Crypto] in
theorem asked_of_notMem (h : t ∉ stay) : asked stay t = (t, true) := by
  rw [← List.contains_iff_mem, Bool.not_eq_true] at h
  rw [asked, h]
  rfl

/-- In the order of `L` the tries take exactly what is valid there. -/
theorem taken_valid (hv : Listed v ids) (hids : ∀ t ∈ L, t.txid ∉ ids)
    (hnd : (L.map Transaction.txid).Nodup)
    (hvalid : ∀ x ∈ acceptedIn (Mempool.nextHeight s) cfg.params.genesisHash stay L v,
      relayFee x.1 ≤ x.2 ∧ (x.1 ∈ stay ∨ admits s x.1 = true)) :
    taken (retry cfg s) (L.map (asked stay)) (v, ids) =
      (acceptedIn (Mempool.nextHeight s) cfg.params.genesisHash stay L v).map
        fun x => asked stay x.1 := by
  induction L generalizing v ids with
  | nil => rfl
  | cons t L ih =>
      rw [List.forall_mem_cons] at hids
      rw [List.map_cons, List.nodup_cons] at hnd
      rw [List.map_cons]
      rw [acceptedIn, LedgerView.apply] at hvalid ⊢
      cases hcheck : checkTx v.reader t (Mempool.nextHeight s) cfg.params.genesisHash
          (!stay.contains t) with
      | error e =>
          have hno : retry cfg s (asked stay t) (v, ids) = none := by
            cases hr : retry cfg s (asked stay t) (v, ids) with
            | none => rfl
            | some st =>
                obtain ⟨-, ops, fee, hok, -⟩ := retry_some hr
                rw [asked, hcheck] at hok
                cases hok
          rw [hcheck] at hvalid
          rw [taken_none hno]
          exact ih hv hids.2 hnd.2 hvalid
      | ok x =>
          obtain ⟨ops, fee⟩ := x
          rw [hcheck] at hvalid
          simp only [List.forall_mem_cons] at hvalid
          obtain ⟨⟨hfee, hstay⟩, hrest⟩ := hvalid
          have hyes : retry cfg s (asked stay t) (v, ids) =
              some (v.commit t (Mempool.nextHeight s) ops, ids ++ [t.txid]) := by
            have hnew : ids.contains t.txid = false := by
              rw [← Bool.not_eq_true, List.contains_iff_mem]
              exact hids.1
            have happly : v.apply t (Mempool.nextHeight s) cfg.params.genesisHash
                (asked stay t).2 = (v.commit t (Mempool.nextHeight s) ops, .ok fee) := by
              rw [LedgerView.apply, asked, hcheck]
            by_cases hin : t ∈ stay
            · rw [asked_of_mem hin] at happly ⊢
              simp only [retry, hnew, Bool.false_eq_true, if_false, happly]
            · rw [asked_of_notMem hin] at happly ⊢
              have hadmits := hstay.resolve_left hin
              have htakes : takes cfg s v ids t = true := by
                rw [takes, hnew, hadmits, hv.free hcheck, happly]
                exact decide_eq_true hfee
              rw [retry, if_pos htakes, happly]
          rw [taken_some hyes, List.map_cons]
          refine congrArg _ (ih (hv.commit hids.1 _ ops) (fun u hu => ?_) hnd.2 hrest)
          rw [List.mem_append, List.mem_singleton, not_or]
          exact ⟨hids.2 u hu, fun he => hnd.1 (he ▸ List.mem_map_of_mem hu)⟩

/-! ## What comes back -/

omit [Crypto] in
theorem mem_tries {a : Transaction × Bool} (h : a ∈ tries stay back) :
    (a.2 = false ∧ a.1 ∈ stay) ∨ (a.2 = true ∧ a.1 ∈ back) := by
  rcases List.mem_append.mp h with h | h
  · obtain ⟨t, ht, rfl⟩ := List.mem_map.mp h
    exact .inl ⟨rfl, ht⟩
  · obtain ⟨t, ht, rfl⟩ := List.mem_map.mp h
    exact .inr ⟨rfl, ht⟩

omit [Crypto] in
/-- Nothing that was read back is tried before an entry that stays. -/
theorem before_tries {r a : Transaction × Bool} (h : Before (tries stay back) r a)
    (ha : a.2 = false) : r.2 = false := by
  obtain ⟨l₁, l₂, hl, h₁, h₂⟩ := List.sublist_append_iff.mp h
  have hno : a ∉ l₂ := by
    intro hin
    obtain ⟨t, -, rfl⟩ := List.mem_map.mp (h₂.subset hin)
    cases ha
  have hin : r ∈ l₁ := by
    cases l₁ with
    | nil =>
        rw [List.nil_append] at hl
        exact absurd (hl ▸ List.mem_cons_of_mem r List.mem_cons_self) hno
    | cons c l₁ =>
        rw [List.cons_append, List.cons.injEq] at hl
        exact hl.1 ▸ List.mem_cons_self
  obtain ⟨t, -, rfl⟩ := List.mem_map.mp (h₁.subset hin)
  rfl

/-- What is not admitted is not taken, so it may be left out of the tries. -/
theorem taken_admits (cfg : Config) (s : Chainstate) (stay back : List Transaction)
    (st : LedgerView × List Hash256) :
    taken (retry cfg s) (tries stay (back.filter (admits s))) st =
      taken (retry cfg s) (tries stay back) st := by
  have hfilter : tries stay (back.filter (admits s)) =
      (tries stay back).filter fun a => !a.2 || admits s a.1 := by
    rw [tries, tries, List.filter_append, List.filter_map, List.filter_map]
    congr 1
    rw [List.filter_eq_self.mpr fun t _ => by rfl]
  rw [hfilter]
  refine taken_filter fun a ha hp st => ?_
  obtain ⟨t, again⟩ := a
  rw [Bool.or_eq_false_iff, Bool.not_eq_false'] at hp
  obtain ⟨hagain, hno⟩ := hp
  simp only at hagain hno
  rw [hagain, retry, if_neg]
  rw [takes, hno]
  simp

omit [Crypto] in
/-- What is asked of a transaction first is asked in the way of `asked`. -/
theorem asked_first {r : Transaction × Bool} (h : Before (tries stay back) r (asked stay t))
    (hr : r.1 = t) : r = asked stay t := by
  obtain ⟨u, again⟩ := r
  obtain rfl : u = t := hr
  by_cases hin : u ∈ stay
  · rw [asked_of_mem hin] at h ⊢
    exact Prod.ext rfl (before_tries h rfl)
  · rw [asked_of_notMem hin]
    rcases mem_tries (h.subset List.mem_cons_self) with ⟨-, hs⟩ | ⟨hagain, -⟩
    · exact absurd hs hin
    · exact Prod.ext rfl hagain

/-- Any other try of it asks no less. -/
theorem asked_strict {r : Transaction × Bool} (h : r ∈ tries stay back) (hr : r.1 = t)
    {st : LedgerView × List Hash256} (hno : retry cfg s (asked stay t) st = none) :
    retry cfg s r st = none := by
  obtain ⟨u, again⟩ := r
  obtain rfl : u = t := hr
  by_cases hin : u ∈ stay
  · rw [asked_of_mem hin] at hno
    cases again with
    | false => exact hno
    | true => exact retry_strict hno
  · rw [asked_of_notMem hin] at hno
    rcases mem_tries h with ⟨-, hs⟩ | ⟨hagain, -⟩
    · exact absurd hs hin
    · obtain rfl : again = true := hagain
      exact hno

/-- If the order of the tries does not go against that of `L`, what is valid in
`L` comes back. -/
theorem comeback_valid (h : InTurn cfg s stay back L)
    (hpaid : ∀ x ∈ validIn cfg s stay L, relayFee x.1 ≤ x.2) :
    ∀ x ∈ validIn cfg s stay L, x.1.txid ∈ comeback cfg s stay back := by
  have hadmits : ∀ x ∈ validIn cfg s stay L,
      relayFee x.1 ≤ x.2 ∧ (x.1 ∈ stay ∨ admits s x.1 = true) :=
    fun x hx => ⟨hpaid x hx, (h.tried x hx).imp_right fun hb => (List.mem_filter.mp hb).2⟩
  have htaken : taken (retry cfg s) (L.map (asked stay)) ({ base := s.reader }, []) =
      (validIn cfg s stay L).map fun x => asked stay x.1 :=
    taken_valid (listed_mk s.reader) (fun _ _ => List.not_mem_nil) h.distinct hadmits
  have hfst : (L.map (asked stay)).map Prod.fst = L := by
    rw [List.map_map]
    exact List.map_id L
  have hkeys : ((L.map (asked stay)).map Prod.fst).Nodup := by
    rw [hfst]
    exact h.distinct.of_map
  have hin : ∀ a ∈ taken (retry cfg s) (L.map (asked stay)) ({ base := s.reader }, []),
      a ∈ tries stay (back.filter (admits s)) := by
    rw [htaken]
    intro a ha
    obtain ⟨x, hx, rfl⟩ := List.mem_map.mp ha
    by_cases hs : x.1 ∈ stay
    · rw [asked_of_mem hs]
      exact List.mem_append_left _ (List.mem_map_of_mem hs)
    · rw [asked_of_notMem hs]
      exact List.mem_append_right _ (List.mem_map_of_mem ((h.tried x hx).resolve_left hs))
  have hmoved := @Local.taken_reordered _ _ _ _ _ _ _ _ Prod.fst _ _ (retry_local cfg s)
    (fun hst hb => retry_dup hst hb) _ _ hkeys hin
    (fun a ha r hr hkey => by
      obtain ⟨t, -, rfl⟩ := List.mem_map.mp ha
      exact asked_first hr hkey)
    (fun a ha r hr hkey st hno => by
      obtain ⟨t, -, rfl⟩ := List.mem_map.mp ha
      exact asked_strict hr hkey hno)
    (fun r b hrb hb hne htouch => by
      rw [hfst] at hb ⊢
      exact List.pairwise_iff_forall_sublist.mp h.order hrb hb hne htouch)
  intro x hx
  have hback := hmoved (asked stay x.1) (by rw [htaken]; exact List.mem_map_of_mem hx)
  rw [taken_admits] at hback
  rw [comeback, run_ids, List.nil_append]
  exact List.mem_map.mpr ⟨asked stay x.1, hback, rfl⟩

/-- What is tried finds what it spends on the chain or among what was tried. -/
theorem taken_spends {l : List (Transaction × Bool)} {a : Transaction × Bool}
    (hv : Listed v ids) (h : a ∈ taken (retry cfg s) l (v, ids)) {o : OutPoint}
    (ho : o ∈ a.1.ins.map TxIn.prev) :
    v.base.coin o ≠ none ∨ o.txid ∈ ids ∨ ∃ b, Before l b a ∧ b.1.txid = o.txid := by
  induction l generalizing v ids with
  | nil => exact absurd h List.not_mem_nil
  | cons c l ih =>
      cases hr : retry cfg s c (v, ids) with
      | none =>
          rw [taken_none hr] at h
          obtain hbase | hid | ⟨b, hb, hid⟩ := ih hv h
          · exact .inl hbase
          · exact .inr (.inl hid)
          · exact .inr (.inr ⟨b, hb.cons c, hid⟩)
      | some st =>
          rw [taken_some hr] at h
          obtain ⟨hnew, ops, fee, hcheck, rfl⟩ := retry_some hr
          rcases List.mem_cons.mp h with rfl | h
          · have hcoin : (v.coin o).isSome := checkTx_inputs hcheck o ho
            rw [LedgerView.coin] at hcoin
            split at hcoin
            · cases hcoin
            split at hcoin
            · next c hc => exact .inr (.inl (hv.created o (mem_iff_exists.mpr ⟨c, hc⟩)).1)
            · split at hcoin
              · cases hcoin
              · exact .inl (Option.isSome_iff_ne_none.mp hcoin)
          · obtain hbase | hid | ⟨b, hb, hid⟩ := ih (hv.commit hnew _ ops) h
            · rw [LedgerView.commit_base] at hbase
              exact .inl hbase
            · rcases List.mem_append.mp hid with hid | hid
              · exact .inr (.inl hid)
              · refine .inr (.inr ⟨c, before_head (mem_of_mem_taken h), ?_⟩)
                exact (List.mem_singleton.mp hid).symm
            · exact .inr (.inr ⟨b, hb.cons c, hid⟩)

/-- What has nothing to spend when it is tried does not come back. -/
theorem comeback_orphaned {id : Hash256} (h : Orphaned s stay back id) :
    id ∉ comeback cfg s stay back := by
  rw [comeback, run_ids, List.nil_append]
  intro hin
  obtain ⟨a, ha, hid⟩ := List.mem_map.mp hin
  obtain ⟨o, ho, hnone, hbefore⟩ := h a (mem_of_mem_taken ha) hid
  obtain hbase | hlisted | ⟨b, hb, hbo⟩ := taken_spends (listed_mk s.reader) ha ho
  · exact hbase hnone
  · exact absurd hlisted List.not_mem_nil
  · exact hbefore b hb hbo

end QuantCore
