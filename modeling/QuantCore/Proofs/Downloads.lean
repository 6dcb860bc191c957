import QuantCore.Proofs.Peers

/-!
# Asking for blocks

`request_blocks` goes through the heights of its window and gives each block
that is missing to the least busy of the peers that can have it. At the end every
missing block of the window is in flight, or else each peer that could serve it
is as busy as it may be or has refused it; and each peer is sent one message at
most, for just the blocks that were given to it.
-/

namespace QuantCore

open Maps

namespace P2P

/-! ## Loads -/

theorem loadOf_erase_le (m : UMap Hash256 (UInt64 × Int)) (b : Hash256) (id : UInt64) :
    loadOf (m.erase b) id ≤ loadOf m id := by
  refine List.Sublist.countP_le ?_
  exact (List.kerase_sublist b m.entries).map _

theorem loadOf_insert {m : UMap Hash256 (UInt64 × Int)} {b : Hash256} (hb : b ∉ m)
    (id : UInt64) (t : Int) (id' : UInt64) :
    loadOf (m.insert b (id, t)) id' = loadOf m id' + if id = id' then 1 else 0 := by
  rw [loadOf, pairs, AList.entries_insert_of_notMem hb, List.map_cons, List.countP_cons]
  simp only [beq_iff_eq]
  rfl

/-! ## Picking a peer -/

/-- May the peer be asked for the block `b` of height `h`? -/
structure Eligible (noWitness : Finset (Hash256 × UInt64)) (load : UInt64 → Nat) (b : Hash256)
    (h : Nat) (q : Peer) : Prop where
  serves : canServe q h = true
  idle : load q.id < maxInflightPerPeer
  willing : (b, q.id) ∉ noWitness

/-- What the loop over `ps` ends with. -/
def Picked (noWitness : Finset (Hash256 × UInt64)) (load : UInt64 → Nat) (b : Hash256) (h : Nat)
    (ps : List Peer) : Option Peer → Prop
  | none => ∀ q ∈ ps, ¬ Eligible noWitness load b h q
  | some p => p ∈ ps ∧ Eligible noWitness load b h p ∧
      ∀ q ∈ ps, Eligible noWitness load b h q → load p.id ≤ load q.id

variable {noWitness : Finset (Hash256 × UInt64)} {load : UInt64 → Nat} {b : Hash256} {h : Nat}

/-- A peer that is not eligible is passed over. -/
theorem Picked.skip {ps : List Peer} {r : Option Peer} (hr : Picked noWitness load b h ps r)
    {q : Peer} (hq : ¬ Eligible noWitness load b h q) :
    Picked noWitness load b h (ps ++ [q]) r := by
  have hlast : ∀ q' ∈ ps ++ [q], Eligible noWitness load b h q' → q' ∈ ps := by
    intro q' hq' he
    rcases List.mem_append.mp hq' with h' | h'
    · exact h'
    · rw [List.mem_singleton] at h'
      exact absurd (h' ▸ he) hq
  cases r with
  | none => exact fun q' hq' he => hr q' (hlast q' hq' he) he
  | some p =>
      obtain ⟨hp, he, hmin⟩ := hr
      exact ⟨List.mem_append_left _ hp, he, fun q' hq' he' => hmin q' (hlast q' hq' he') he'⟩

theorem Picked.step {ps : List Peer} {r : Option Peer} (hr : Picked noWitness load b h ps r)
    (q : Peer) : Picked noWitness load b h (ps ++ [q]) (pickStep noWitness load b h r q) := by
  rw [pickStep.eq_def]
  split
  · next hs => exact hr.skip fun he => by simp [he.serves] at hs
  split
  · next hs hl =>
      refine hr.skip fun he => ?_
      rcases hl with hl | hl
      · exact absurd he.idle (Nat.not_lt.mpr hl)
      · exact he.willing hl
  next hs hl =>
  rw [not_or] at hl
  have he : Eligible noWitness load b h q :=
    ⟨by simpa using hs, Nat.lt_of_not_le hl.1, hl.2⟩
  have hself : q ∈ ps ++ [q] := List.mem_append_right _ (List.mem_singleton_self q)
  cases r with
  | none =>
      refine ⟨hself, he, fun q' hq' he' => ?_⟩
      rcases List.mem_append.mp hq' with h' | h'
      · exact absurd he' (hr q' h')
      · rw [List.mem_singleton.mp h']
  | some p =>
      obtain ⟨hp, hep, hmin⟩ := hr
      simp only
      split
      · next hlt =>
          refine ⟨hself, he, fun q' hq' he' => ?_⟩
          rcases List.mem_append.mp hq' with h' | h'
          · exact hlt.le.trans (hmin q' h' he')
          · rw [List.mem_singleton.mp h']
      · next hlt =>
          refine ⟨List.mem_append_left _ hp, hep, fun q' hq' he' => ?_⟩
          rcases List.mem_append.mp hq' with h' | h'
          · exact hmin q' h' he'
          · rw [List.mem_singleton.mp h']
            exact Nat.le_of_not_lt hlt

/-- The peer that is picked can have the block, and no other that can is less busy. -/
theorem pick_spec (s : P2P) (load : UInt64 → Nat) (b : Hash256) (h : Nat) :
    Picked s.noWitness load b h s.peers (s.pick load b h) := by
  rw [pick]
  induction s.peers using List.reverseRecOn with
  | nil => exact fun q hq => absurd hq List.not_mem_nil
  | append_singleton ps q ih =>
      rw [List.foldl_append]
      exact ih.step q

/-! ## Batches -/

/-- What holds of a batch in the making. -/
structure Batch.Sound (s : P2P) (now : Int) (x : Batch) : Prop where
  load : ∀ id, x.load id = loadOf x.inflight id
  cap : ∀ id, x.load id ≤ max maxInflightPerPeer (loadOf s.inflight id)
  old : ∀ b v, s.inflight.lookup b = some v → x.inflight.lookup b = some v
  new : ∀ b id t, x.inflight.lookup b = some (id, t) → b ∉ s.inflight →
    t = now ∧ (b, id) ∉ s.noWitness ∧ (∃ q ∈ s.peers, q.id = id ∧ q.active ∧ q.full) ∧
      ∃ hs, x.batches.lookup id = some hs ∧ b ∈ hs
  batch : ∀ id hs, x.batches.lookup id = some hs → hs ≠ [] ∧ hs.Nodup ∧
    ∀ b ∈ hs, b ∉ s.inflight ∧ x.inflight.lookup b = some (id, now)

variable {s : P2P} {now : Int} {x : Batch}

theorem Batch.Sound.start (s : P2P) (now : Int) :
    Batch.Sound s now { inflight := s.inflight, load := loadOf s.inflight } where
  load _ := rfl
  cap _ := Nat.le_max_right _ _
  old _ _ h := h
  new b _ _ h hn := absurd (mem_iff_exists.mpr ⟨_, h⟩) hn
  batch id hs h := by
    replace h : (∅ : UMap UInt64 (List Hash256)).lookup id = some hs := h
    rw [AList.lookup_empty] at h
    cases h

theorem Batch.Sound.ask (hx : Batch.Sound s now x) {b : Hash256} (hb : b ∉ x.inflight) {q : Peer}
    {h : Nat} (hq : q ∈ s.peers) (he : Eligible s.noWitness x.load b h q) :
    Batch.Sound s now (x.ask b q.id now) := by
  have hbs : b ∉ s.inflight := fun hm => by
    obtain ⟨v, hv⟩ := mem_iff_exists.mp hm
    exact hb (mem_iff_exists.mpr ⟨v, hx.old b v hv⟩)
  have hserves := he.serves
  rw [canServe, Bool.and_eq_true, Bool.and_eq_true] at hserves
  refine ⟨fun id => ?_, fun id => ?_, fun b' v hv => ?_, fun b' id t hl hn => ?_,
    fun id hs hl => ?_⟩
  · show Function.update x.load q.id (x.load q.id + 1) id = loadOf (x.inflight.insert b _) id
    rw [loadOf_insert hb, Function.update_apply, hx.load]
    by_cases hid : id = q.id
    · subst hid
      rw [if_pos rfl, if_pos rfl]
    · rw [if_neg hid, if_neg fun h => hid h.symm]
      exact hx.load id
  · show Function.update x.load q.id (x.load q.id + 1) id ≤ _
    rw [Function.update_apply]
    split
    · next hid =>
        subst hid
        exact (Nat.succ_le_of_lt he.idle).trans (Nat.le_max_left _ _)
    · exact hx.cap id
  · show (x.inflight.insert b _).lookup b' = some v
    rw [lookup_insert_ite, if_neg]
    · exact hx.old b' v hv
    · rintro rfl
      exact hb (mem_iff_exists.mpr ⟨v, hx.old _ v hv⟩)
  · replace hl : (x.inflight.insert b (q.id, now)).lookup b' = some (id, t) := hl
    show _ ∧ _ ∧ _ ∧ ∃ hs, (x.batches.insert q.id _).lookup id = some hs ∧ b' ∈ hs
    rw [lookup_insert_ite] at hl
    split at hl
    · next hb' =>
        cases hl
        subst hb'
        refine ⟨rfl, he.willing, ⟨q, hq, rfl, hserves.1⟩, _, lookup_insert_ite .. |>.trans
          (if_pos rfl), List.mem_append_right _ (List.mem_singleton_self _)⟩
    · obtain ⟨ht, hw, hp, hs, hbatch, hmem⟩ := hx.new b' id t hl hn
      refine ⟨ht, hw, hp, ?_⟩
      simp only [lookup_insert_ite]
      split
      · next hid =>
          subst hid
          rw [hbatch]
          exact ⟨_, rfl, List.mem_append_left _ hmem⟩
      · exact ⟨hs, hbatch, hmem⟩
  · replace hl : (x.batches.insert q.id ((x.batches.lookup q.id).getD [] ++ [b])).lookup id =
        some hs := hl
    have hother : ∀ id hs, x.batches.lookup id = some hs → ∀ b' ∈ hs, b' ∉ s.inflight ∧
        (x.inflight.insert b (q.id, now)).lookup b' = some (id, now) := by
      intro id hs hl b' hb'
      obtain ⟨-, -, hall⟩ := hx.batch id hs hl
      obtain ⟨hn, hi⟩ := hall b' hb'
      refine ⟨hn, ?_⟩
      rw [lookup_insert_ite, if_neg]
      · exact hi
      · rintro rfl
        exact hb (mem_iff_exists.mpr ⟨_, hi⟩)
    rw [lookup_insert_ite] at hl
    split at hl
    · next hid =>
        subst hid
        cases hl
        refine ⟨List.append_ne_nil_of_right_ne_nil _ (List.cons_ne_nil _ _), ?_, ?_⟩
        · cases ho : x.batches.lookup q.id with
          | none => exact List.nodup_singleton b
          | some hs =>
              obtain ⟨-, hnd, hall⟩ := hx.batch q.id hs ho
              rw [Option.getD_some, List.nodup_append]
              refine ⟨hnd, List.nodup_singleton b, fun a ha c hc => ?_⟩
              rw [List.mem_singleton] at hc
              subst hc
              rintro rfl
              exact hb (mem_iff_exists.mpr ⟨_, (hall a ha).2⟩)
        · intro b' hb'
          rcases List.mem_append.mp hb' with hb' | hb'
          · cases ho : x.batches.lookup q.id with
            | none =>
                rw [ho] at hb'
                exact absurd hb' List.not_mem_nil
            | some hs =>
                rw [ho] at hb'
                exact hother q.id hs ho b' hb'
          · rw [List.mem_singleton] at hb'
            subst hb'
            exact ⟨hbs, lookup_insert_ite .. |>.trans (if_pos rfl)⟩
    · obtain ⟨hne, hnd, -⟩ := hx.batch id hs hl
      exact ⟨hne, hnd, hother id hs hl⟩

/-- Every peer that could serve the block is as busy as it may be, or has refused it. -/
def Exhausted (s : P2P) (load : UInt64 → Nat) (b : Hash256) (h : Nat) : Prop :=
  ∀ q ∈ s.peers, canServe q h = true →
    maxInflightPerPeer ≤ load q.id ∨ (b, q.id) ∈ s.noWitness

/-- A round leaves the block of its height in flight, if it can, and gives up
nothing it has. -/
theorem requestStep_spec (best : Hash256) (hx : x.Sound s now) (h : Nat) :
    (s.requestStep best now x h).Sound s now ∧
      (∀ b ∈ x.inflight, b ∈ (s.requestStep best now x h).inflight) ∧
      (∀ id, x.load id ≤ (s.requestStep best now x h).load id) ∧
      ∀ b, s.node.cs.ancestor best h = some b → (s.node.cs.entry b).haveData = false →
        b ∈ (s.requestStep best now x h).inflight ∨
          s.Exhausted (s.requestStep best now x h).load b h := by
  rw [requestStep]
  split
  · next ha =>
      refine ⟨hx, fun _ hb => hb, fun _ => Nat.le_refl _, fun b hb => ?_⟩
      rw [ha] at hb
      cases hb
  next b ha =>
  have hblock : ∀ b', s.node.cs.ancestor best h = some b' → b' = b := fun b' hb' => by
    rw [ha] at hb'
    exact (Option.some.inj hb').symm
  split
  · next hd =>
      refine ⟨hx, fun _ hb => hb, fun _ => Nat.le_refl _, fun b' hb' hn => ?_⟩
      rw [hblock b' hb'] at hn ⊢
      rcases hd with hd | hd
      · exact absurd hd (by rw [hn]; exact Bool.false_ne_true)
      · exact Or.inl hd
  next hd =>
  rw [not_or] at hd
  have hp := pick_spec s x.load b h
  split
  · next hn =>
      rw [hn] at hp
      refine ⟨hx, fun _ hb => hb, fun _ => Nat.le_refl _, fun b' hb' _ => Or.inr fun q hq hs => ?_⟩
      rw [hblock b' hb']
      by_contra hc
      rw [not_or] at hc
      exact hp q hq ⟨hs, Nat.lt_of_not_le hc.1, hc.2⟩
  · next q hq =>
      rw [hq] at hp
      obtain ⟨hmem, he, -⟩ := hp
      refine ⟨hx.ask hd.2 hmem he, fun b' hb' => ?_, fun id => ?_, fun b' hb' _ => Or.inl ?_⟩
      · exact AList.mem_insert _ |>.mpr (Or.inr hb')
      · show x.load id ≤ Function.update x.load q.id (x.load q.id + 1) id
        rw [Function.update_apply]
        split
        · next hid => exact hid ▸ Nat.le_succ _
        · exact Nat.le_refl _
      · rw [hblock b' hb']
        exact AList.mem_insert _ |>.mpr (Or.inl rfl)

/-- The loop over the heights. -/
theorem requestLoop_spec (best : Hash256) (hx : x.Sound s now) (hs : List Nat) :
    (hs.foldl (s.requestStep best now) x).Sound s now ∧
      (∀ b ∈ x.inflight, b ∈ (hs.foldl (s.requestStep best now) x).inflight) ∧
      (∀ id, x.load id ≤ (hs.foldl (s.requestStep best now) x).load id) ∧
      ∀ h ∈ hs, ∀ b, s.node.cs.ancestor best h = some b →
        (s.node.cs.entry b).haveData = false →
        b ∈ (hs.foldl (s.requestStep best now) x).inflight ∨
          s.Exhausted (hs.foldl (s.requestStep best now) x).load b h := by
  induction hs generalizing x with
  | nil =>
      exact ⟨hx, fun _ hb => hb, fun _ => Nat.le_refl _, fun h hh => absurd hh List.not_mem_nil⟩
  | cons h hs ih =>
      obtain ⟨hx₁, hin₁, hload₁, hall₁⟩ := requestStep_spec best hx h
      obtain ⟨hx₂, hin₂, hload₂, hall₂⟩ := ih hx₁
      rw [List.foldl_cons]
      refine ⟨hx₂, fun b hb => hin₂ b (hin₁ b hb), fun id => (hload₁ id).trans (hload₂ id), ?_⟩
      intro h' hh' b hb hd
      rcases List.mem_cons.mp hh' with rfl | hh'
      · rcases hall₁ b hb hd with hi | he
        · exact Or.inl (hin₂ b hi)
        · refine Or.inr fun q hq hc => (he q hq hc).imp_left fun hl => hl.trans (hload₂ q.id)
      · exact hall₂ h' hh' b hb hd

theorem batchFrom_sound (s : P2P) (best fork : Hash256) (now : Int) :
    (s.batchFrom best fork now).Sound s now :=
  (requestLoop_spec best (.start s now) _).1

/-- Up to the end of the window nothing is left out that somebody could serve. -/
theorem batchFrom_complete (s : P2P) (best fork : Hash256) (now : Int) {h : Nat}
    (hlo : (s.node.cs.entry fork).height < h)
    (hhi : h ≤ min (s.node.cs.entry best).height ((s.node.cs.entry fork).height + downloadWindow))
    {b : Hash256} (hb : s.node.cs.ancestor best h = some b)
    (hd : (s.node.cs.entry b).haveData = false) :
    b ∈ (s.batchFrom best fork now).inflight ∨
      s.Exhausted (s.batchFrom best fork now).load b h := by
  refine (requestLoop_spec best (.start s now) _).2.2.2 h ?_ b hb hd
  rw [List.mem_range'_1]
  omega

theorem nextBatch_eq {x : Batch} (h : s.nextBatch now = some x) :
    ∃ best fork, s.node.cs.bestHeader = some best ∧ s.node.cs.forkPoint best = some fork ∧
      x = s.batchFrom best fork now := by
  rw [nextBatch] at h
  split at h
  · cases h
  next best hbest =>
  split at h
  · cases h
  split at h
  · cases h
  next fork hfork =>
    exact ⟨best, fork, hbest, hfork, (Option.some.inj h).symm⟩

/-- Who a batch is for. -/
theorem Batch.Sound.receiver (hx : x.Sound s now) {id : UInt64} {hs : List Hash256}
    (h : x.batches.lookup id = some hs) : ∃ q ∈ s.peers, q.id = id ∧ q.active ∧ q.full := by
  obtain ⟨hne, -, hall⟩ := hx.batch id hs h
  obtain ⟨b, hb⟩ := List.exists_mem_of_ne_nil hs hne
  obtain ⟨hn, hi⟩ := hall b hb
  exact (hx.new b id now hi hn).2.2.1

theorem Batch.mem_sorted {x : Batch} {e : UInt64 × List Hash256} :
    e ∈ x.sorted ↔ x.batches.lookup e.1 = some e.2 := by
  rw [sorted, List.mem_mergeSort]
  exact mem_pairs

theorem Batch.sorted_nodup (x : Batch) : (x.sorted.map Prod.fst).Nodup := by
  rw [sorted, ((List.mergeSort_perm _ _).map Prod.fst).nodup_iff]
  exact pairs_nodup x.batches

/-! ## Sending -/

/-- An active peer has introduced itself, and so has whoever has its id. -/
theorem Distinct.met (hd : s.Distinct) {q : Peer} (hq : q ∈ s.peers) (ha : q.active = true) :
    s.Met q.id := by
  intro k hk hid
  have hinj := List.inj_on_of_nodup_map hd hk (List.mem_map_of_mem hq) hid
  rw [hinj]
  rw [Peer.active, Bool.and_eq_true, Bool.and_eq_true] at ha
  exact ha.1.1

variable [Crypto] {net : P2PConfig}

/-- The blocks of a batch are in flight with peers that can be waited for. -/
theorem Quiet.inflight (hx : x.Sound s now) :
    Quiet net s { s with inflight := x.inflight } where
  peers := Peer.Kept.self s.peers
  nextPeerId := rfl
  node h := h
  downloads h := by
    refine ⟨fun b id t hl => ?_, fun id => ?_⟩
    · replace hl : x.inflight.lookup b = some (id, t) := hl
      by_cases hb : b ∈ s.inflight
      · obtain ⟨v, hv⟩ := mem_iff_exists.mp hb
        have hold := hx.old b v hv
        rw [hl] at hold
        cases hold
        exact h.asked b id t hv
      · obtain ⟨-, hw, ⟨q, hq, hid, ha, hf⟩, -⟩ := hx.new b id t hl hb
        rw [Peer.active, Bool.and_eq_true, Bool.and_eq_true] at ha
        have hs : q.ver.services &&& serviceFull ≠ 0 := by simpa [Peer.full] using hf
        exact ⟨⟨q.key, List.mem_map_of_mem hq, hid, ha.1.1, ha.1.2, hs⟩, hw⟩
    · show loadOf x.inflight id ≤ _
      rw [← hx.load]
      exact (hx.cap id).trans (Nat.max_le.mpr ⟨Nat.le_refl _, h.load id⟩)

theorem requestMissing_quiet (hd : s.Distinct) : Quiet net s (s.requestMissing net now) := by
  rw [requestMissing]
  split
  · exact Quiet.refl s
  next x hb =>
  obtain ⟨best, fork, -, -, rfl⟩ := nextBatch_eq hb
  have hx := batchFrom_sound s best fork now
  refine (Quiet.inflight hx).trans (Quiet.foldl fun t e he ht => ?_)
  obtain ⟨q, hq, hid, ha, -⟩ := hx.receiver (Batch.mem_sorted.mp he)
  refine Quiet.send (ht.met ?_) (by decide) _
  exact hid ▸ hd.met (s := { s with inflight := _ }) hq ha

omit [Crypto] in
/-- The messages of a batch, one for each peer it is about. -/
theorem sendBatch_foldl (net : P2PConfig) (l : List (UInt64 × List Hash256)) (hl : (l.map Prod.fst).Nodup)
    (s : P2P) : List.Forall₂ (fun p q =>
      (∀ hs, (p.id, hs) ∈ l → ∃ breaks, q = p.put Cmd.getData
        (writeInv (hs.map fun h => ⟨invBlock, h⟩)) breaks) ∧
      ((∀ hs, (p.id, hs) ∉ l) → q = p)) s.peers (l.foldl (sendBatch net) s).peers := by
  induction l generalizing s with
  | nil =>
      refine List.forall₂_same.mpr fun p _ => ⟨fun hs h => absurd h List.not_mem_nil, fun _ => rfl⟩
  | cons e l ih =>
      rw [List.map_cons, List.nodup_cons] at hl
      have hrest := ih hl.2 (sendBatch net s e)
      rw [show (sendBatch net s e).peers = s.peers.map _ from rfl,
        List.forall₂_map_left_iff] at hrest
      rw [List.foldl_cons]
      refine hrest.imp fun p q hpq => ?_
      have hnot : p.id = e.1 → ∀ hs, (p.id, hs) ∉ l := fun hid hs hm =>
        hl.1 (hid ▸ List.mem_map_of_mem hm)
      by_cases hid : p.id = e.1
      · rw [if_pos hid] at hpq
        have hid' : ∀ c payload breaks, (p.put c payload breaks).id = p.id := fun c payload breaks => by
          rw [Peer.put]
          split <;> rfl
        have hq := hpq.2 (by rw [hid']; exact hnot hid)
        refine ⟨fun hs hm => ⟨net.env.breaks s.io, ?_⟩, fun hn => absurd ?_ (hn e.2)⟩
        · rcases List.mem_cons.mp hm with hm | hm
          · rw [← hm] at hq
            exact hq
          · exact absurd hm (hnot hid hs)
        · rw [hid]
          exact List.mem_cons_self
      · rw [if_neg hid] at hpq
        refine ⟨fun hs hm => ?_, fun hn => hpq.2 fun hs hm => hn hs (List.mem_cons_of_mem e hm)⟩
        rcases List.mem_cons.mp hm with hm | hm
        · exact absurd (congrArg Prod.fst hm) hid
        · exact hpq.1 hs hm

omit [Crypto] in
theorem foldl_sendBatch_inflight (l : List (UInt64 × List Hash256)) (s : P2P) :
    (l.foldl (sendBatch net) s).inflight = s.inflight := by
  induction l generalizing s with
  | nil => rfl
  | cons e l ih => exact ih (sendBatch net s e)

variable (net now) in
omit [Crypto] in
/-- What `request_blocks` asks for when there is something to ask for. Up to
the end of the window each missing block ends up in flight, or everybody who
could serve it is exhausted; and each peer is sent just the blocks that are newly
in flight with it, in one message if there are any. -/
theorem requestMissing_spec (hd : s.Distinct) {best fork : Hash256}
    (hbest : s.node.cs.bestHeader = some best)
    (hwork : (s.node.cs.work best).le (s.node.cs.work s.node.cs.tip) = false)
    (hfork : s.node.cs.forkPoint best = some fork) :
    (∀ h b, (s.node.cs.entry fork).height < h →
      h ≤ min (s.node.cs.entry best).height ((s.node.cs.entry fork).height + downloadWindow) →
      s.node.cs.ancestor best h = some b → (s.node.cs.entry b).haveData = false →
      b ∈ (s.requestMissing net now).inflight ∨
        s.Exhausted (loadOf (s.requestMissing net now).inflight) b h) ∧
    List.Forall₂ (fun p q => ∃ hs : List Hash256, hs.Nodup ∧
      (∀ b, b ∈ hs ↔ b ∉ s.inflight ∧
        (s.requestMissing net now).inflight.lookup b = some (p.id, now)) ∧
      q.out = p.out ++ if hs = [] then []
        else [(Cmd.getData, writeInv (hs.map fun h => ⟨invBlock, h⟩))])
      s.peers (s.requestMissing net now).peers := by
  have hb : s.nextBatch now = some (s.batchFrom best fork now) := by
    rw [nextBatch, hbest]
    simp only [hwork, hfork]
    rfl
  have hx := batchFrom_sound s best fork now
  have ht : s.requestMissing net now = (s.batchFrom best fork now).sorted.foldl (sendBatch net)
      { s with inflight := (s.batchFrom best fork now).inflight } := by
    rw [requestMissing, hb]
  generalize hxe : s.batchFrom best fork now = x at *
  have hin : (s.requestMissing net now).inflight = x.inflight := by
    rw [ht, foldl_sendBatch_inflight]
  rw [hin]
  refine ⟨fun h b hlo hhi ha hn => ?_, ?_⟩
  · have hc := batchFrom_complete s best fork now hlo hhi ha hn
    rw [hxe, funext hx.load] at hc
    exact hc
  rw [ht]
  have hs := sendBatch_foldl net x.sorted x.sorted_nodup { s with inflight := x.inflight }
  refine List.Forall₂.imp (fun p q => ?_) ((List.forall₂_and_left _ _).mpr ⟨fun p hp => hp, hs⟩)
  rintro ⟨hp, hin, hout⟩
  cases hl : x.batches.lookup p.id with
  | none =>
      refine ⟨[], List.nodup_nil, fun b => ⟨fun h => absurd h List.not_mem_nil, ?_⟩, ?_⟩
      · rintro ⟨hn, hi⟩
        obtain ⟨-, -, -, hs, hbatch, -⟩ := hx.new b p.id now hi hn
        rw [hl] at hbatch
        cases hbatch
      · rw [hout fun hs hm => ?_, if_pos rfl, List.append_nil]
        have := Batch.mem_sorted.mp hm
        rw [hl] at this
        cases this
  | some hs =>
      obtain ⟨hne, hnd, hall⟩ := hx.batch p.id hs hl
      refine ⟨hs, hnd, fun b => ⟨hall b, ?_⟩, ?_⟩
      · rintro ⟨hn, hi⟩
        obtain ⟨-, -, -, hs', hbatch, hmem⟩ := hx.new b p.id now hi hn
        rw [hl] at hbatch
        cases hbatch
        exact hmem
      · obtain ⟨breaks, rfl⟩ := hin hs (Batch.mem_sorted.mpr hl)
        obtain ⟨q', hq', hid, ha, -⟩ := hx.receiver hl
        have heq : q' = p := by
          refine List.inj_on_of_nodup_map (f := Peer.id) ?_ hq' hp hid
          rw [P2P.Distinct, P2P.keys, List.map_map] at hd
          exact hd
        subst heq
        rw [Peer.active, Bool.and_eq_true] at ha
        rw [Peer.put, if_neg (by simpa using ha.2), if_neg hne]

/-! ## Fast sync -/

omit [Crypto] in
theorem choose_request {f : FastSync} {target : Hash256} {peers : List SyncPeer} {now : Int}
    {id : UInt64} {payload : Bytes}
    (h : (f.choose target peers now).2.2 = some (id, payload)) :
    (f.choose target peers now).2.1 = true ∧ ∃ p ∈ peers, p.id = id ∧ p.active = true := by
  rw [FastSync.choose] at h ⊢
  split at h
  · next p hp =>
      cases h
      have hu := List.find?_some hp
      rw [FastSync.usable, Bool.and_eq_true, Bool.and_eq_true] at hu
      exact ⟨rfl, p, List.mem_of_find?_eq_some hp, rfl, hu.1.1⟩
  · cases h

/-- A first request goes to an active peer, and a download is in progress then. -/
theorem tryFastSync_request (cfg : Config) (cs : Chainstate) (peers : List SyncPeer) (now : Int)
    (f : FastSync) : ∀ id payload,
    (f.tryFastSync cfg cs peers now).2.2 = some (id, payload) →
      (f.tryFastSync cfg cs peers now).2.1 = true ∧ ∃ p ∈ peers, p.id = id ∧ p.active = true := by
  intro id payload h
  generalize hr : f.tryFastSync cfg cs peers now = r at h ⊢
  rw [FastSync.tryFastSync] at hr
  split at hr
  · subst hr
    cases h
  split at hr
  · subst hr
    cases h
  split at hr
  · subst hr
    cases h
  split at hr
  · subst hr
    cases h
  split at hr
  · subst hr
    cases h
  · subst hr
    exact choose_request h

theorem requestBlocks_quiet (hd : s.Distinct) : Quiet net s (s.requestBlocks net now) := by
  rw [requestBlocks]
  split
  · have hf : ∀ f, Quiet net s { s with snap := f } := fun f => .same ⟨rfl, rfl, rfl, rfl, rfl⟩
    have hreq := tryFastSync_request net.chain s.node.cs s.syncPeers now s.snap
    generalize s.snap.tryFastSync net.chain s.node.cs s.syncPeers now = r at hreq ⊢
    obtain ⟨f, busy, req⟩ := r
    have h : Quiet net s (({ s with snap := f } : P2P).startDownload net req) := by
      cases req with
      | none => exact hf f
      | some e =>
          obtain ⟨-, p, hp, hid, ha⟩ := hreq e.1 e.2 rfl
          obtain ⟨q, hq, rfl⟩ := List.mem_map.mp hp
          exact (hf f).trans (.send (hid ▸ (hf f).met (hd.met hq ha)) (by decide) _)
    simp only
    split
    · exact h
    · exact h.trans (requestMissing_quiet (h.distinct hd))
  · exact requestMissing_quiet hd

end P2P

end QuantCore
