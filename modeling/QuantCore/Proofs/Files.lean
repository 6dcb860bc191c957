import QuantCore.Proofs.Canonical
import QuantCore.Proofs.Placed
import QuantCore.Proofs.Snapshot
import QuantCore.Proofs.Undo

/-!
# What the files hold

A node is rebuilt from its files, so they have an invariant of their own: the
headers are headers of blocks that are around; every recorded position in
`blocks.dat` is that of the core of such a block; an undo record undoes its
block; and a snapshot is the state of a branch. Only the block tree says which
branch is active, and the files do not depend on it.
-/

namespace QuantCore

open Codec Maps Forest

/-! ## Records of a fixed size -/

theorem records_flatMap {α : Type} {n : Nat} (hn : 0 < n) {f : α → Bytes} (l : List α)
    (hf : ∀ a ∈ l, (f a).length = n) : Chainstate.records n (l.flatMap f) = l.map f := by
  induction l with
  | nil =>
      rw [List.flatMap_nil, List.map_nil, Chainstate.records, List.length_nil, Nat.zero_div]
      rfl
  | cons a l ih =>
      rw [List.forall_mem_cons] at hf
      have hlen : ((a :: l).flatMap f).length / n = (l.flatMap f).length / n + 1 := by
        rw [List.flatMap_cons, List.length_append, hf.1, Nat.add_comm, Nat.add_div_right _ hn]
      rw [Chainstate.records, hlen, List.range_succ_eq_map, List.map_cons, List.map_map,
        List.map_cons, ← ih hf.2, Chainstate.records]
      have hhead : (((a :: l).flatMap f).drop (0 * n)).take n = f a := by
        rw [Nat.zero_mul, List.drop_zero, List.flatMap_cons, List.take_append_of_le_length
          hf.1.ge, ← hf.1, List.take_length]
      rw [hhead]
      refine congrArg _ (List.map_congr_left fun i _ => ?_)
      show (((a :: l).flatMap f).drop ((i + 1) * n)).take n = _
      rw [List.flatMap_cons, Nat.add_mul, Nat.one_mul, Nat.add_comm, ← List.drop_drop,
        ← hf.1, List.drop_left]

variable [Crypto] (net : Network) (known : Block → Prop)

/-! ## What they say -/

/-- What there is to know of the blocks that are around: genesis is one of them,
their names do not collide, and each can be encoded. -/
structure Sources : Prop where
  genesis : known (paramsFor net).genesis
  free : Collisionless known
  limits : ∀ b, known b → b.Limits

/-- A block that is around and meets the checks for the place its header has. -/
structure Filed (h : Hash256) (b : Block) : Prop where
  around : known b
  hash : b.header.hash = h
  checked : ∀ n, Placed (paramsFor net).genesisHash known h n → b.Checked n

/-- The core of a block in `blocks.dat`. -/
structure StoredAt (blocks : Bytes) (h : Hash256) (pos len : Nat) (b : Block) : Prop where
  filed : Filed net known h b
  within : pos + len ≤ blocks.length
  small : len < 2 ^ 32
  slice : (blocks.drop pos).take len = b.coreBytes

/-- A snapshot of the state at the block `h`. -/
def IsState (h : Hash256) (x : Bytes) : Prop :=
  ∃ n bs L, ∃ snap : Snapshot, Branch (paramsFor net) known n h bs L ∧ snap.Of h n L ∧ x = snap.write

/-- An undo record of the block `h`. -/
def IsUndo (h : Hash256) (x : Bytes) : Prop :=
  ∃ n bs L L' b, ∃ u : Undo, Branch (paramsFor net) known n b.header.prev bs L ∧
    Branch (paramsFor net) known (n + 1) h (b :: bs) L' ∧ u.Undoes b L L' ∧ x = u.write

/-- The witnesses that the header of the block `h` commits to. -/
def IsWitness (h : Hash256) (x : Bytes) : Prop :=
  ∃ b, known b ∧ b.header.hash = h ∧ b.computeWitnessRoot = b.header.witnessRoot ∧
    x = b.witnessBytes

structure Disk.Files (disk : Disk) : Prop where
  headers : ∃ hs : List BlockHeader, disk.headers = hs.flatMap BlockHeader.write ∧
    ∀ hd ∈ hs, ∃ b, known b ∧ b.header = hd
  positions : ∃ ps : List (Hash256 × Nat × Nat),
    disk.blockpos = ps.flatMap (fun p => Chainstate.writePosition p.1 p.2.1 p.2.2) ∧
      ∀ p ∈ ps, ∃ b, StoredAt net known disk.blocks p.1 p.2.1 p.2.2 b
  witness : ∀ h x, disk.witness.lookup h = some x → IsWitness known h x
  undo : ∀ h x, disk.undo.lookup h = some x → IsUndo net known h x
  snapshots : ∀ h x, disk.snapshots.lookup h = some x → IsState net known h x
  utxo : ∀ x, disk.utxoDat = some x →
    ∃ h y, IsState net known h y ∧ x = y ++ (blake3 y).bytes

variable {net known}

theorem StoredAt.append {blocks : Bytes} {h : Hash256} {pos len : Nat} {b : Block}
    (hs : StoredAt net known blocks h pos len b) (more : Bytes) :
    StoredAt net known (blocks ++ more) h pos len b where
  filed := hs.filed
  within := by
    rw [List.length_append]
    exact Nat.le_add_right_of_le hs.within
  small := hs.small
  slice := by
    have hw := hs.within
    rw [List.drop_append_of_le_length (by omega), List.take_append_of_le_length, hs.slice]
    rw [List.length_drop]
    omega

theorem files_empty : Disk.Files net known {} where
  headers := ⟨[], rfl, fun _ h => nomatch h⟩
  positions := ⟨[], rfl, fun _ h => nomatch h⟩
  witness := fun _ _ h => nomatch h
  undo := fun _ _ h => nomatch h
  snapshots := fun _ _ h => nomatch h
  utxo := fun _ h => nomatch h

/-! ## Reading a block -/

omit [Crypto] in
theorem readWitnessesOf_core {ts xs : List Transaction} {bs rest : Bytes}
    (h : Block.readWitnessesOf ts bs = .ok (xs, rest)) :
    xs.map Transaction.core = ts.map Transaction.core := by
  induction ts generalizing xs bs rest with
  | nil =>
      rw [(pure_ok h).1]
  | cons t ts ih =>
      obtain ⟨t', mid, ht, h⟩ := bind_ok h
      obtain ⟨ts', mid', hts, h⟩ := bind_ok h
      obtain ⟨w, mid'', -, ht⟩ := bind_ok ht
      rw [(pure_ok h).1, List.map_cons, List.map_cons, ih hts, (pure_ok ht).1]
      rfl

omit [Crypto] in
theorem readWitness_core {b blk : Block} {bs rest : Bytes}
    (h : b.readWitness bs = .ok (blk, rest)) : blk.core = b.core := by
  obtain ⟨ts, mid, hts, h⟩ := bind_ok h
  rw [(pure_ok h).1]
  show ({ b with txs := ts.map Transaction.core } : Block) = _
  rw [readWitnessesOf_core hts]
  rfl

namespace Chainstate

variable {s s' : Chainstate}

/-- What is read back has the core that was stored, and the witnesses of its
file if it has any. -/
theorem readBlock_stored {cfg : Config} {h : Hash256} {w got : Bool} {blk : Block}
    (hr : s.readBlock cfg h w = some (blk, got))
    (hd : ∀ i, s.lookup h = some i → i.haveData = true →
      ∃ b, StoredAt net known s.disk.blocks h i.dataPos i.dataLen b)
    (hl : ∀ b, known b → b.Limits) :
    ∃ b, Filed net known h b ∧ blk.core = b.core ∧ (got = false → blk = b.core) ∧
      (got = true → w = true ∧ ∃ x rest, s.disk.witness.lookup h = some x ∧
        b.core.readWitness x = .ok (blk, rest)) := by
  rw [readBlock] at hr
  split at hr
  · cases hr
  next hdata =>
  have hdata : (s.entry h).haveData = true := by
    rw [Bool.not_eq_true', Bool.not_eq_false] at hdata
    exact hdata
  obtain ⟨i, hi⟩ : ∃ i, s.lookup h = some i := by
    cases hi : s.lookup h with
    | none =>
        rw [entry, show s.index.lookup h = none from hi] at hdata
        cases hdata
    | some i => exact ⟨i, rfl⟩
  have hent : s.entry h = i := by rw [entry, show s.index.lookup h = some i from hi]; rfl
  rw [hent] at hdata
  obtain ⟨b, hb⟩ := hd i hi hdata
  rw [hent, hb.slice, (decodes_blockCore (hl b hb.filed.around)).run] at hr
  refine ⟨b, hb.filed, ?_⟩
  split at hr
  · cases hr
  simp only [] at hr
  split at hr
  · cases hr
  split at hr
  · next hw =>
      rw [attachWitness] at hr
      split at hr
      · cases hr
        exact ⟨b.core_core, fun _ => rfl, fun h => absurd h (by decide)⟩
      · next x hx =>
          split at hr
          · cases hr
          · next blk' rest hread =>
              cases hr
              refine ⟨(readWitness_core hread).trans b.core_core, (fun h => absurd h (by decide)), fun _ => ?_⟩
              rw [witnessFile] at hx
              split at hx
              · cases hx
              · exact ⟨hw, x, rest, hx, hread⟩
  · cases hr
    exact ⟨b.core_core, fun _ => rfl, fun h => absurd h (by decide)⟩

/-! ## What a connect leaves behind -/

omit [Crypto] in
theorem lookup_foldl_erase {ν : Type} (l : List Hash256) {m : UMap Hash256 ν} {k : Hash256}
    {v : ν} (h : (l.foldl (fun m i => m.erase i) m).lookup k = some v) :
    m.lookup k = some v := by
  induction l generalizing m with
  | nil => exact h
  | cons i l ih =>
      have := ih h
      rw [lookup_erase_ite] at this
      split at this
      · cases this
      · exact this

/-- The files after a connect hold what they held and, for the new tip, its undo
record and the snapshot of the new state. -/
structure Leaves (s c s' : Chainstate) (idx : Hash256) (u : Undo) : Prop where
  witness : ∀ h x, s'.disk.witness.lookup h = some x → s.disk.witness.lookup h = some x
  undo : ∀ h x, s'.disk.undo.lookup h = some x →
    s.disk.undo.lookup h = some x ∨ (h = idx ∧ x = u.write)
  snapshots : ∀ h x, s'.disk.snapshots.lookup h = some x →
    s.disk.snapshots.lookup h = some x ∨ (h = idx ∧ x = c.serializeState)
  held : ∀ h x, s'.snapshotHash.lookup h = some x →
    s.snapshotHash.lookup h = some x ∨ (h = idx ∧ x = stateHash c.serializeState)

theorem recordUndo_leaves (s c : Chainstate) (idx : Hash256) (height : Nat) (u : Undo)
    (hc : c.disk = s.disk) (hh : c.snapshotHash = s.snapshotHash) :
    Leaves s c (c.recordUndo idx height u) idx u := by
  rw [recordUndo]
  split
  · refine ⟨?_, ?_, ?_, ?_⟩
    · rw [← hc]
      exact fun h x hx => hx
    · intro h x hx
      rw [lookup_insert_ite, hc] at hx
      split at hx
      · next he =>
          cases hx
          exact .inr ⟨he, rfl⟩
      · exact .inl hx
    · rw [← hc]
      exact fun h x hx => .inl hx
    · rw [← hh]
      exact fun h x hx => .inl hx
  · refine ⟨?_, ?_, ?_, ?_⟩
    · rw [hc]
      exact fun h x hx => hx
    · rw [hc]
      exact fun h x hx => .inl hx
    · rw [hc]
      exact fun h x hx => .inl hx
    · rw [hh]
      exact fun h x hx => .inl hx

theorem snapshotDue_leaves {s c t : Chainstate} {cfg : Config} {idx : Hash256} {height : Nat}
    {u : Undo} (h : Leaves s c t idx u) (hser : t.serializeState = c.serializeState) :
    Leaves s c (snapshotDue cfg t idx height) idx u := by
  rw [snapshotDue]
  split
  · rcases writeCommitSnapshot_eq cfg t idx with he | ⟨l, he⟩
    · rw [he]
      exact h
    · rw [he]
      refine ⟨h.witness, h.undo, fun k x hx => ?_, fun k x hx => ?_⟩
      · have hx := lookup_foldl_erase l hx
        rw [lookup_insert_ite] at hx
        split at hx
        · next hk =>
            cases hx
            exact .inr ⟨hk, hser⟩
        · exact h.snapshots k x hx
      · have hx := lookup_foldl_erase l hx
        rw [lookup_insert_ite] at hx
        split at hx
        · next hk =>
            cases hx
            exact .inr ⟨hk, by rw [hser]⟩
        · exact h.held k x hx
  · exact h

theorem pruneAt_leaves {s c t : Chainstate} {idx : Hash256} {u : Undo} (h : Leaves s c t idx u)
    (k : Nat) : Leaves s c (t.pruneAt k) idx u := by
  rw [pruneAt]
  split
  · exact h
  · split
    · exact h
    · refine ⟨fun k x hx => ?_, fun k x hx => ?_, h.snapshots, h.held⟩
      · rw [lookup_erase_ite] at hx
        split at hx
        · cases hx
        · exact h.witness k x hx
      · rw [lookup_erase_ite] at hx
        split at hx
        · cases hx
        · exact h.undo k x hx

theorem commitBlock_leaves (cfg : Config) (s : Chainstate) (idx : Hash256) (b : Block)
    (v : LedgerView) :
    Leaves s (s.connected idx b v) (s.commitBlock cfg idx b v) idx v.undo := by
  have hl := commitView_ledgerOnly s v
  have hdisk : (s.connected idx b v).disk = s.disk := by
    show (s.commitView v).disk = s.disk
    rw [hl]
  have hheld : (s.connected idx b v).snapshotHash = s.snapshotHash := by
    show (s.commitView v).snapshotHash = s.snapshotHash
    rw [hl]
  have h₁ := recordUndo_leaves s (s.connected idx b v) idx (s.entry idx).height v.undo hdisk hheld
  have hser : ((s.connected idx b v).recordUndo idx (s.entry idx).height v.undo).serializeState =
      (s.connected idx b v).serializeState := by
    rw [recordUndo]
    split <;> rfl
  have h₂ : Leaves s (s.connected idx b v) (snapshotDue cfg
      ((s.connected idx b v).recordUndo idx (s.entry idx).height v.undo) idx
        (s.entry idx).height) idx v.undo := snapshotDue_leaves h₁ hser
  have h₃ : Leaves s (s.connected idx b v) (pruneDue cfg
      (snapshotDue cfg ((s.connected idx b v).recordUndo idx (s.entry idx).height v.undo) idx
        (s.entry idx).height) (s.entry idx).height) idx v.undo := by
    rw [pruneDue]
    split
    · exact pruneAt_leaves h₂ _
    · exact h₂
  exact ⟨h₃.witness, h₃.undo, h₃.snapshots, h₃.held⟩

end Chainstate

end QuantCore
