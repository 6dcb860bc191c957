import QuantCore.Proofs.Canonical
import QuantCore.Proofs.Script
import QuantCore.Proofs.Startup
import QuantCore.Proofs.Work

/-!
# The block positions after a crash

`blockpos.dat` is read in strides of one record from its start and written at
its end. A crash can leave part of a record behind; `load` cuts such a rest off
`headers.dat`, but of `blockpos.dat` it reads the whole records and appends
after the rest. Without a rest every record comes back. Behind one, every later
record is read across two strides.
-/

namespace QuantCore

open Codec Maps

/-- One record of `blockpos.dat`. -/
structure Position where
  hash : Hash256
  pos : UInt64
  len : UInt32
deriving DecidableEq

namespace Position

def write (p : Position) : Bytes :=
  Writer.hash p.hash ++ (Writer.u64le p.pos ++ Writer.u32le p.len)

/-- The file with these records. -/
def writeAll (ps : List Position) : Bytes := ps.flatMap write

/-- `blocks.dat` is long enough, as `load` puts it: the sum has 64 bits. -/
def Fits (p : Position) (blocks : Bytes) : Prop :=
  (p.pos + p.len.toUInt64).toNat ≤ blocks.length

instance (p : Position) (blocks : Bytes) : Decidable (p.Fits blocks) :=
  inferInstanceAs (Decidable (_ ≤ _))

/-- What lies within `blocks.dat` fits; a position near the end of the 64 bits may
fit as well. -/
theorem Fits.of_within {p : Position} {blocks : Bytes}
    (h : p.pos.toNat + p.len.toNat ≤ blocks.length) : p.Fits blocks := by
  rw [Fits, UInt64.toNat_add, UInt32.toNat_toUInt64]
  exact (Nat.mod_le _ _).trans h

theorem write_length (p : Position) : p.write.length = 44 := by
  simp only [write, List.length_append, Writer.hash, Writer.u64le, Writer.u32le,
    leBytes_length, Hash256.bytes_length]

theorem writeAll_append (ps qs : List Position) :
    writeAll (ps ++ qs) = writeAll ps ++ writeAll qs := List.flatMap_append ..

theorem decodes (p : Position) :
    Decodes Chainstate.readPosition p.write (p.hash, p.pos, p.len) :=
  (ByteReader.decodes_hash _).bind ((ByteReader.decodes_u64le _).bind
    (ByteReader.decodes_u32le _).bind_pure)

/-- What is read as a position was written as one. -/
theorem of_read {r rest : Bytes} {h : Hash256} {pos : UInt64} {len : UInt32}
    (hr : Chainstate.readPosition r = .ok ((h, pos, len), rest)) :
    r = write ⟨h, pos, len⟩ ++ rest := by
  obtain ⟨h', mid, hh, hr⟩ := bind_ok hr
  obtain ⟨pos', mid', hp, hr⟩ := bind_ok hr
  obtain ⟨len', mid'', hl, hr⟩ := bind_ok hr
  obtain ⟨heq, rfl⟩ := pure_ok hr
  cases heq
  rw [(ByteReader.canonical_hash _ _ _ hh).1, (ByteReader.canonical_u64le _ _ _ hp).1,
    (ByteReader.canonical_u32le _ _ _ hl).1, write]
  simp only [List.append_assoc]

end Position

open QuantCore.Position

/-- The last record of a block that fits. -/
def lastOf (ps : List Position) (blocks : Bytes) (h : Hash256) : Option Position :=
  ps.reverse.find? fun p => p.hash = h ∧ p.Fits blocks

/-- Whole records, and less than one after them. -/
theorem records_tail (ps : List Position) {tail : Bytes} (h : tail.length < 44) :
    Chainstate.records 44 (writeAll ps ++ tail) = ps.map write := by
  have hlen : (writeAll ps).length = ps.length * 44 := by
    rw [writeAll, List.length_flatMap]
    simp only [write_length, List.map_const', List.sum_replicate_nat]
  have hcount : (writeAll ps ++ tail).length / 44 = (writeAll ps).length / 44 := by
    rw [List.length_append, hlen]
    omega
  have hwhole : Chainstate.records 44 (writeAll ps) = ps.map write :=
    records_flatMap (by decide) ps fun p _ => p.write_length
  rw [← hwhole, Chainstate.records, Chainstate.records, hcount]
  refine List.map_congr_left fun i hi => ?_
  rw [List.mem_range, hlen, Nat.mul_div_cancel _ (by decide)] at hi
  have hle : i * 44 ≤ (writeAll ps).length := by
    rw [hlen]
    omega
  rw [List.drop_append_of_le_length hle, List.take_append_of_le_length]
  rw [List.length_drop, hlen]
  omega

namespace Chainstate

/-- Every block that is known and has a record that fits has its data at the place
the last of them names. -/
def Recovers (s : Chainstate) (blocks : Bytes) (ps : List Position) : Prop :=
  ∀ h ∈ s.index, ∀ p, lastOf ps blocks h = some p →
    s.dataOf h = some (true, p.pos.toNat, p.len.toNat)

theorem indexPosition_dataOf (s : Chainstate) (p : Position) {h : Hash256} :
    (s.indexPosition p.write).dataOf h =
      if h = p.hash ∧ p.Fits s.disk.blocks then
        (s.lookup h).map fun _ => (true, p.pos.toNat, p.len.toNat)
      else s.dataOf h := by
  rw [indexPosition, p.decodes.run]
  dsimp only
  by_cases hfit : p.Fits s.disk.blocks
  · rw [if_neg (Nat.not_lt.mpr hfit), dataOf, lookup_modify]
    by_cases hh : h = p.hash
    · rw [if_pos hh, if_pos ⟨hh, hfit⟩, hh, Option.map_map]
      rfl
    · rw [if_neg hh, if_neg fun hc => hh hc.1, dataOf]
  · rw [if_pos (Nat.lt_of_not_le hfit), if_neg fun hc => hfit hc.2]

/-- Reading whole records one after the other, the last one that fits wins. -/
theorem foldl_recovers (s : Chainstate) (ps : List Position) :
    ((ps.map write).foldl indexPosition s).Recovers s.disk.blocks ps := by
  induction ps using List.reverseRecOn with
  | nil =>
      intro h _ p hp
      cases hp
  | append_singleton ps q ih =>
      intro h hh p hp
      rw [List.map_append, List.map_singleton, List.foldl_append] at hh ⊢
      generalize ht : (ps.map write).foldl indexPosition s = t at ih hh ⊢
      have hdisk : t.disk = s.disk := by rw [← ht, foldl_indexPosition_disk]
      rw [List.foldl_cons, List.foldl_nil] at hh ⊢
      have hmem : h ∈ t.index := by
        have hnode := (indexPosition_sameTree t q.write).node
        rw [← node_isSome, hnode, node_isSome] at hh
        exact hh
      rw [lastOf, List.reverse_append, List.reverse_singleton, List.singleton_append,
        List.find?_cons] at hp
      rw [indexPosition_dataOf, hdisk]
      by_cases hq : q.hash = h ∧ q.Fits s.disk.blocks
      · rw [decide_eq_true hq] at hp
        cases hp
        obtain ⟨e, he⟩ := Option.isSome_iff_exists.mp (AList.lookup_isSome.mpr hmem)
        rw [if_pos ⟨hq.1.symm, hq.2⟩, show t.lookup h = some e from he]
        rfl
      · rw [decide_eq_false hq] at hp
        rw [if_neg fun hc => hq ⟨hc.1.symm, hc.2⟩]
        exact ih h hmem p hp

/-! ## A start on what a crash left -/

section Start

variable [Crypto]

/-- The tree a start makes of `headers.dat`, before it looks for blocks. -/
def treeOnDisk (cfg : Config) (disk : Disk) (tick : Nat) : Chainstate :=
  ((headersOnDisk disk).foldl indexHeader { disk := truncateHeaders disk, tick }).indexGenesis cfg

theorem treeOnDisk_disk (cfg : Config) (disk : Disk) (tick : Nat) :
    (treeOnDisk cfg disk tick).disk.blocks = disk.blocks ∧
      (treeOnDisk cfg disk tick).disk.blockpos = disk.blockpos := by
  rw [treeOnDisk, (indexGenesis_disk _ _).1, (indexGenesis_disk _ _).2, foldl_indexHeader_disk]
  exact ⟨rfl, rfl⟩

/-- The positions read, and genesis stored where there is none for it. -/
theorem loadIndex_eq {cfg : Config} {disk : Disk} {tick : Nat} {s t : Chainstate}
    (h : loadIndex cfg disk tick = .ok s)
    (ht : t = (records 44 disk.blockpos).foldl indexPosition (treeOnDisk cfg disk tick)) :
    s = if (t.entry cfg.params.genesisHash).haveData then t
      else (t.storeBlock cfg cfg.params.genesisHash cfg.params.genesis true).1 := by
  rw [loadIndex] at h
  split at h
  · cases h
  · rw [Except.ok.injEq] at h
    rw [← h, ht, ← (treeOnDisk_disk cfg disk tick).2]
    rfl

/-- A start recovers the whole records, whatever less than one comes after. -/
theorem loadIndex_recovers {cfg : Config} {disk : Disk} {tick : Nat} {s : Chainstate}
    (h : loadIndex cfg disk tick = .ok s) {ps : List Position} {tail : Bytes}
    (hpos : disk.blockpos = writeAll ps ++ tail) (htail : tail.length < 44) :
    s.Recovers disk.blocks ps := by
  have hread := foldl_recovers (treeOnDisk cfg disk tick) ps
  rw [(treeOnDisk_disk cfg disk tick).1, ← records_tail ps htail, ← hpos] at hread
  generalize ht : (records 44 disk.blockpos).foldl indexPosition (treeOnDisk cfg disk tick) = t
    at hread
  have hs := loadIndex_eq h ht.symm
  intro k hk p hp
  split at hs
  · rw [hs] at hk ⊢
    exact hread k hk p hp
  · next hdata =>
      generalize hst : storeBlock cfg t _ _ true = st at hs
      obtain ⟨s', done⟩ := st
      obtain rfl : s = s' := hs
      rcases storeBlock_cases hst with ⟨-, rfl, -⟩ | ⟨-, -, rfl⟩
      · exact hread k hk p hp
      · have hk' : k ∈ t.index := by
          have hnode : ∀ w, (t.stored cfg.params.genesisHash cfg.params.genesis w).node = t.node :=
            fun _ => modify_node t cfg.params.genesisHash fun _ => rfl
          rw [← node_isSome, hnode, node_isSome] at hk
          exact hk
        have hold := hread k hk' p hp
        rw [stored_dataOf, if_neg, hold]
        -- Genesis itself has no record that fits, or it would not be stored again.
        rintro rfl
        refine hdata ?_
        rw [dataOf] at hold
        obtain ⟨i, hi, hdi⟩ := Option.map_eq_some_iff.mp hold
        rw [entry, show t.index.lookup cfg.params.genesisHash = some i from hi]
        exact congrArg Prod.fst hdi

end Start

/-! ## A crash, a start, more records, the next start -/

section Sessions

variable [Crypto]

/-- What is in `blockpos.dat` after `store_block`s, with the records they wrote.
Nothing else writes to the file. -/
inductive Appends (cfg : Config) (s : Chainstate) : List Position → Chainstate → Prop
  | none : Appends cfg s [] s
  | store {ps : List Position} {t t' : Chainstate} {idx : Hash256} {b : Block} {w : Bool}
      (h : Appends cfg s ps t) (hs : t.storeBlock cfg idx b w = (t', true)) :
      Appends cfg s (ps ++ [⟨idx, UInt64.ofNat t.disk.blocks.length,
        UInt32.ofNat b.coreBytes.length⟩]) t'
  | other {ps : List Position} {t t' : Chainstate} (h : Appends cfg s ps t)
      (hsame : t'.disk.blockpos = t.disk.blockpos) : Appends cfg s ps t'

/-- A crash left the records `whole` and a `tail`; the node started on that into
`s₁`, writing the records `opening` at once, and stored `more` until it stopped
in `s₂`; from there it started again into `s₃`. -/
structure Restarted (cfg : Config) (whole : List Position) (tail : Bytes)
    (opening more : List Position) (s₁ s₂ s₃ : Chainstate) : Prop where
  start : ∃ disk tick, disk.blockpos = writeAll whole ++ tail ∧
    loadIndex cfg disk tick = .ok s₁ ∧ s₁.disk.blockpos = disk.blockpos ++ writeAll opening
  appends : Appends cfg s₁ more s₂
  restart : ∃ tick, loadIndex cfg s₂.disk tick = .ok s₃

variable {cfg : Config} {s s' s₁ s₂ s₃ : Chainstate} {whole opening more : List Position}
  {tail : Bytes}

omit [Crypto] in
theorem storeBlock_blockpos {idx : Hash256} {b : Block} {w : Bool}
    (h : s.storeBlock cfg idx b w = (s', true)) :
    s'.disk.blockpos = s.disk.blockpos ++ write ⟨idx, UInt64.ofNat s.disk.blocks.length,
      UInt32.ofNat b.coreBytes.length⟩ := by
  rcases storeBlock_cases h with ⟨hf, -⟩ | ⟨-, -, rfl⟩
  · cases hf
  · show s.disk.blockpos ++ writePosition _ _ _ = _
    rw [writePosition, write, List.append_assoc]

omit [Crypto] in
theorem Appends.blockpos {ps : List Position} (h : Appends cfg s ps s') :
    s'.disk.blockpos = s.disk.blockpos ++ writeAll ps := by
  induction h with
  | none => exact (List.append_nil _).symm
  | store h hs ih =>
      rw [storeBlock_blockpos hs, ih, writeAll_append, List.append_assoc, writeAll, writeAll,
        List.flatMap_singleton]
  | other h hsame ih => rw [hsame, ih]

theorem Restarted.blockpos (h : Restarted cfg whole tail opening more s₁ s₂ s₃) :
    s₂.disk.blockpos = writeAll whole ++ (tail ++ writeAll (opening ++ more)) := by
  obtain ⟨disk, tick, hdisk, -, hopen⟩ := h.start
  rw [h.appends.blockpos, hopen, hdisk, writeAll_append]
  simp only [List.append_assoc]

/-- Without a torn record, or without any record after it, all come back. -/
theorem Restarted.recovers (h : Restarted cfg whole tail opening more s₁ s₂ s₃)
    (htail : tail.length < 44) (hok : tail = [] ∨ opening ++ more = []) :
    s₃.Recovers s₂.disk.blocks (whole ++ (opening ++ more)) := by
  obtain ⟨tick, hload⟩ := h.restart
  have hpos := h.blockpos
  rcases hok with rfl | hnone
  · rw [List.nil_append, ← writeAll_append, ← List.append_nil (writeAll _)] at hpos
    exact loadIndex_recovers hload hpos (by decide)
  · have hnil : writeAll [] = [] := rfl
    rw [hnone, hnil, List.append_nil] at hpos
    rw [hnone, List.append_nil]
    exact loadIndex_recovers hload hpos htail

/-! ## Behind a torn record -/

omit [Crypto] in
theorem getElem?_write_hash (p : Position) :
    p.write[32]? = some (UInt8.ofNat p.pos.toNat) := by
  have hlen : (Writer.hash p.hash).length = 32 := Hash256.bytes_length _
  rw [write, List.getElem?_append_right (by omega), hlen, Nat.sub_self, Writer.u64le, leBytes]
  rfl

/-- A node that has nothing but perhaps its genesis header. -/
theorem tree_genesis (cfg : Config) {disk : Disk} (tick : Nat)
    (hh : headersOnDisk disk = [] ∨ headersOnDisk disk = [cfg.params.genesis.header]) :
    (∃ s, loadIndex cfg disk tick = .ok s) ∧
      (treeOnDisk cfg disk tick).dataOf cfg.params.genesisHash = some (false, 0, 0) := by
  have hhash : cfg.params.genesisHash = cfg.params.genesis.header.hash := genesis_hash cfg.network
  rcases hh with hnone | hone
  · constructor
    · rw [loadIndex, hnone, if_neg fun h => absurd h.1 (by decide)]
      exact ⟨_, rfl⟩
    · have hkeys : ({ disk := truncateHeaders disk, tick } : Chainstate).index.keys.isEmpty =
          true := rfl
      rw [treeOnDisk, hnone, List.foldl_nil, indexGenesis, if_pos hkeys]
      show (Chainstate.addIndex _ cfg.params.genesis.header).dataOf _ = _
      rw [addIndex_dataOf, if_pos hhash]
  · constructor
    · rw [loadIndex, hone, if_neg fun h => h.2 hhash.symm]
      exact ⟨_, rfl⟩
    · have hadd : indexHeader { disk := truncateHeaders disk, tick } cfg.params.genesis.header =
          addIndex { disk := truncateHeaders disk, tick } cfg.params.genesis.header := by
        rw [indexHeader, if_pos (.inl rfl), if_neg (AList.notMem_empty _)]
      rw [treeOnDisk, hone, List.foldl_cons, List.foldl_nil, hadd]
      generalize hs : ({ disk := truncateHeaders disk, tick } : Chainstate) = s
      have hdata : (s.addIndex cfg.params.genesis.header).dataOf cfg.params.genesisHash =
          some (false, 0, 0) := by rw [addIndex_dataOf, if_pos hhash]
      have hkeys : ¬ (s.addIndex cfg.params.genesis.header).index.keys.isEmpty = true := by
        rw [dataOf] at hdata
        obtain ⟨i, hi, -⟩ := Option.map_eq_some_iff.mp hdata
        have hmem := AList.mem_keys.mp (AList.lookup_isSome.mp (Option.isSome_of_eq_some hi))
        intro he
        rw [List.isEmpty_iff.mp he] at hmem
        cases hmem
      rw [indexGenesis, if_neg hkeys]
      exact hdata

omit [Crypto] in
/-- A position that is read where the bytes behind a tail say something else. -/
theorem misread {tail : Bytes} (hne : tail ≠ []) {g h : Hash256} {pos pos' : UInt64}
    {len len' : UInt32} {c : UInt8} (hc : (tail ++ Writer.hash g)[32]? = some c)
    (hpos : UInt8.ofNat pos.toNat ≠ c) {rest : Bytes}
    (hr : readPosition ((tail ++ write ⟨g, pos', len'⟩).take 44) = .ok ((h, pos, len), rest)) :
    False := by
  have htail : 0 < tail.length := List.length_pos_iff.mpr hne
  have hhash : (Writer.hash g).length = 32 := Hash256.bytes_length _
  have hbyte : (write ⟨h, pos, len⟩ ++ rest)[32]? = some (UInt8.ofNat pos.toNat) := by
    rw [List.getElem?_append_left (by rw [write_length]; decide), getElem?_write_hash]
  rw [← of_read hr, List.getElem?_take_of_lt (by decide), write, ← List.append_assoc,
    List.getElem?_append_left (by rw [List.length_append, hhash]; omega), hc,
    Option.some.injEq] at hbyte
  exact hpos hbyte.symm

/-- Behind a torn record a position is not what is read, and a genesis block that
is not found is stored at the end of `blocks.dat` once more. -/
theorem second_start {disk : Disk} {tick : Nat} {pos : UInt64} {len : UInt32} {c : UInt8}
    (hreliable : Reliable cfg) (hh : headersOnDisk disk = [cfg.params.genesis.header])
    (hne : tail ≠ []) (htail : tail.length < 44)
    (hblockpos : disk.blockpos = tail ++ write ⟨cfg.params.genesisHash, pos, len⟩)
    (hc : (tail ++ Writer.hash cfg.params.genesisHash)[32]? = some c)
    (hpos : UInt8.ofNat pos.toNat ≠ c) (hend : disk.blocks.length ≠ pos.toNat)
    (h : loadIndex cfg disk tick = .ok s) :
    s.dataOf cfg.params.genesisHash ≠ some (true, pos.toNat, len.toNat) := by
  have hone : records 44 disk.blockpos =
      [(tail ++ write ⟨cfg.params.genesisHash, pos, len⟩).take 44] := by
    have hlen : (tail ++ write ⟨cfg.params.genesisHash, pos, len⟩).length / 44 = 1 := by
      have htpos : 0 < tail.length := List.length_pos_iff.mpr hne
      rw [List.length_append, write_length]
      omega
    rw [hblockpos, records, hlen]
    rfl
  have hdata := (tree_genesis cfg tick (.inr hh)).2
  have hblocks := (treeOnDisk_disk cfg disk tick).1
  have hshape := loadIndex_eq h rfl
  rw [hone, List.foldl_cons, List.foldl_nil] at hshape
  generalize treeOnDisk cfg disk tick = t at hdata hblocks hshape
  generalize hu : t.indexPosition _ = u at hshape
  -- Read or not, the record does not give the place it was written for.
  have hread : u.disk = t.disk ∧ ∀ d, u.dataOf cfg.params.genesisHash = some (true, d) →
      d ≠ (pos.toNat, len.toNat) := by
    rw [← hu, indexPosition]
    split
    · refine ⟨rfl, fun d hd => ?_⟩
      rw [hdata] at hd
      cases hd
    · next k pos' len' rest hr =>
        split
        · refine ⟨rfl, fun d hd => ?_⟩
          rw [hdata] at hd
          cases hd
        · refine ⟨by rw [modify_eq], fun d hd hdeq => ?_⟩
          rw [dataOf, lookup_modify] at hd
          split at hd
          · rw [Option.map_map] at hd
            obtain ⟨i, -, hi⟩ := Option.map_eq_some_iff.mp hd
            rw [hdeq] at hi
            have hposEq : pos'.toNat = pos.toNat := congrArg (fun x => x.2.1) hi
            exact misread hne hc (by rw [hposEq]; exact hpos) hr
          · rw [← dataOf, hdata] at hd
            cases hd
  intro hbad
  split at hshape
  · rw [hshape] at hbad
    exact hread.2 _ hbad rfl
  · next hno =>
      have hfault : cfg.env.fault u.tick .writeBlock = false := hreliable _ _
      rw [storeBlock, if_neg (by rw [hfault]; exact Bool.false_ne_true)] at hshape
      rw [hshape, stored_dataOf, if_pos rfl] at hbad
      obtain ⟨i, -, hi⟩ := Option.map_eq_some_iff.mp hbad
      have hplace : u.disk.blocks.length = pos.toNat := congrArg (fun x => x.2.1) hi
      rw [hread.1, hblocks] at hplace
      exact hend hplace

/-- A start on a directory with nothing but a torn position and some block data
writes the genesis header and block. -/
theorem first_start {disk : Disk} {tick : Nat} (hreliable : Reliable cfg)
    (hh : disk.headers = []) (htail : disk.blockpos.length < 44) :
    ∃ s, loadIndex cfg disk tick = .ok s ∧
      s.disk.headers = [cfg.params.genesis.header].flatMap BlockHeader.write ∧
      s.disk.blocks = disk.blocks ++ cfg.params.genesis.coreBytes ∧
      s.disk.blockpos = disk.blockpos ++ writeAll [⟨cfg.params.genesisHash,
        UInt64.ofNat disk.blocks.length, UInt32.ofNat cfg.params.genesis.coreBytes.length⟩] := by
  have hnone : headersOnDisk disk = [] := headersOnDisk_eq hh
  obtain ⟨⟨s, hload⟩, hdata⟩ := tree_genesis cfg tick (.inl hnone)
  have hrec : records 44 disk.blockpos = [] := records_tail [] htail
  have hshape := loadIndex_eq hload rfl
  rw [hrec, List.foldl_nil] at hshape
  have hheaders : (treeOnDisk cfg disk tick).disk.headers = cfg.params.genesis.header.write := by
    have hkeys : ({ disk := truncateHeaders disk, tick } : Chainstate).index.keys.isEmpty =
        true := rfl
    rw [treeOnDisk, hnone, List.foldl_nil, indexGenesis, if_pos hkeys]
    show (Chainstate.addIndex _ _).disk.headers ++ _ = _
    rw [addIndex_eq]
    show disk.headers.take _ ++ _ = _
    rw [hh, List.take_nil, List.nil_append]
  obtain ⟨hblocks, hblockpos⟩ := treeOnDisk_disk cfg disk tick
  generalize treeOnDisk cfg disk tick = t at hdata hshape hheaders hblocks hblockpos
  have hno : ¬ (t.entry cfg.params.genesisHash).haveData = true := by
    rw [dataOf] at hdata
    obtain ⟨i, hi, hdi⟩ := Option.map_eq_some_iff.mp hdata
    rw [entry, show t.index.lookup cfg.params.genesisHash = some i from hi]
    have : i.haveData = false := congrArg Prod.fst hdi
    rw [Option.getD_some, this]
    exact Bool.false_ne_true
  rw [if_neg hno] at hshape
  generalize hst : t.storeBlock cfg cfg.params.genesisHash cfg.params.genesis true = st at hshape
  obtain ⟨s', done⟩ := st
  obtain rfl : s = s' := hshape
  rcases storeBlock_cases hst with ⟨-, -, hf⟩ | ⟨rfl, -, hs⟩
  · rw [hreliable] at hf
    cases hf
  · refine ⟨s, hload, ?_, ?_, ?_⟩
    · rw [hs, List.flatMap_singleton]
      exact hheaders
    · rw [hs, ← hblocks]
      rfl
    · rw [storeBlock_blockpos hst, hblockpos, hblocks, writeAll, List.flatMap_singleton]

/-- Behind any torn record the next one is lost: here that of genesis, which the
start after the crash writes and the start after that does not find. -/
theorem hidden_behind_tail (net : Network) (hne : tail ≠ []) (htail : tail.length < 44) :
    ∃ cfg opening s₁ s₂ s₃, cfg.network = net ∧
      Restarted cfg [] tail opening [] s₁ s₂ s₃ ∧
      ¬ s₃.Recovers s₂.disk.blocks ([] ++ (opening ++ [])) := by
  obtain ⟨cfg, hnet, hreliable⟩ : ∃ cfg : Config, cfg.network = net ∧ Reliable cfg :=
    ⟨⟨net, false, ⟨fun _ _ => false, fun _ => 0⟩⟩, rfl, fun _ _ => rfl⟩
  -- `blocks.dat` is one or two bytes long, whichever the misread byte is not.
  obtain ⟨c, hc⟩ : ∃ c, (tail ++ Writer.hash cfg.params.genesisHash)[32]? = some c := by
    have hlen : (Writer.hash cfg.params.genesisHash).length = 32 := Hash256.bytes_length _
    have hpos : 0 < tail.length := List.length_pos_iff.mpr hne
    exact ⟨_, List.getElem?_eq_getElem (by rw [List.length_append]; omega)⟩
  obtain ⟨n, hn2, hnc⟩ : ∃ n, n ≤ 2 ∧ UInt8.ofNat n ≠ c := by
    by_cases h : UInt8.ofNat 1 = c
    · exact ⟨2, by decide, by rw [← h]; decide⟩
    · exact ⟨1, by decide, h⟩
  have hn : (UInt64.ofNat n).toNat = n := by
    rw [UInt64.toNat_ofNat']
    omega
  let disk : Disk := { blocks := List.replicate n 0, blockpos := tail }
  have hnoHeaders : disk.headers = [] := rfl
  obtain ⟨s₁, hload₁, hheaders, hblocks, hblockpos⟩ :
      ∃ s, loadIndex cfg disk 0 = .ok s ∧ _ := first_start hreliable hnoHeaders htail
  have hh := headersOnDisk_eq hheaders
  obtain ⟨⟨s₃, hload₃⟩, -⟩ := tree_genesis cfg 0 (.inr hh)
  have hsize : disk.blocks.length = n := List.length_replicate
  rw [hsize, writeAll, List.flatMap_singleton] at hblockpos
  have hcore : 0 < cfg.params.genesis.coreBytes.length := by
    rw [Block.coreBytes, List.length_append, List.length_append, header_write_length]
    exact Nat.add_pos_left (Nat.add_pos_left (by decide) _) _
  have hlen : s₁.disk.blocks.length = n + cfg.params.genesis.coreBytes.length := by
    rw [hblocks, List.length_append, hsize]
  have hlost := second_start hreliable hh hne htail hblockpos hc (by rw [hn]; exact hnc)
    (by rw [hn, hlen]; omega) hload₃
  generalize hp : Position.mk cfg.params.genesisHash (UInt64.ofNat n)
    (UInt32.ofNat cfg.params.genesis.coreBytes.length) = p at hblockpos
  have hkey : p.hash = cfg.params.genesisHash := by rw [← hp]
  have hlost' : s₃.dataOf p.hash ≠ some (true, p.pos.toNat, p.len.toNat) := by
    rw [← hp]
    exact hlost
  have hfits : p.Fits s₁.disk.blocks := by
    refine .of_within ?_
    rw [← hp, hn, hlen, UInt32.toNat_ofNat']
    exact Nat.add_le_add_left (Nat.mod_le _ _) _
  have hmem : p.hash ∈ s₃.index := by
    obtain ⟨g, hg, -⟩ := (loadIndex_tree hload₃).2.genesis
    rw [hkey]
    exact node_isSome.mp (Option.isSome_of_eq_some hg)
  have hlast : lastOf ([] ++ ([p] ++ [])) s₁.disk.blocks p.hash = some p := by
    simp only [lastOf, List.nil_append, List.append_nil, List.reverse_singleton, List.find?_cons,
      hfits, and_self, decide_true]
  refine ⟨cfg, [p], s₁, s₁, s₃, hnet, ⟨⟨disk, 0, rfl, hload₁, ?_⟩, .none, 0, hload₃⟩,
    fun hrec => hlost' (hrec p.hash hmem p hlast)⟩
  rw [hblockpos, writeAll, List.flatMap_singleton]

/-- A crash that tears no record loses none: whatever records are written after
it, the next start finds every block by the last record of it that fits. Behind a
torn record, of whatever length, records can be lost; the ones before it are not. -/
theorem recovers_iff_whole (net : Network) (htail : tail.length < 44) :
    ((∀ cfg whole opening more s₁ s₂ s₃, cfg.network = net →
        Restarted cfg whole tail opening more s₁ s₂ s₃ →
        s₃.Recovers s₂.disk.blocks (whole ++ (opening ++ more))) ↔ tail = []) ∧
      ∀ cfg whole s₁ s₂ s₃, Restarted cfg whole tail [] [] s₁ s₂ s₃ →
        s₃.Recovers s₂.disk.blocks whole := by
  refine ⟨⟨fun hall => ?_, fun hnone _ _ _ _ _ _ _ _ h => h.recovers htail (.inl hnone)⟩,
    fun _ whole _ _ _ h => ?_⟩
  · by_contra hne
    obtain ⟨cfg, opening, s₁, s₂, s₃, hnet, hrun, hlost⟩ := hidden_behind_tail net hne htail
    exact hlost (hall cfg [] opening [] s₁ s₂ s₃ hnet hrun)
  · have hrec := h.recovers htail (.inr rfl)
    rwa [List.append_nil, List.append_nil] at hrec

end Sessions

/-! ## A block hidden -/

/-- Start on a directory, store a block and start once more. -/
def storeBetween [Crypto] (cfg : Config) (disk : Disk) (idx : Hash256) (b : Block) :
    Option (Chainstate × Chainstate × Chainstate) :=
  match quickLoadIndex cfg disk 0 with
  | .error _ => none
  | .ok s₁ =>
      match s₁.storeBlock cfg idx b true with
      | (_, false) => none
      | (s₂, true) =>
          match quickLoadIndex cfg s₂.disk 0 with
          | .error _ => none
          | .ok s₃ => some (s₁, s₂, s₃)

theorem storeBetween_some [Crypto] {cfg : Config} {disk : Disk} {idx : Hash256} {b : Block}
    {s₁ s₂ s₃ : Chainstate} (h : storeBetween cfg disk idx b = some (s₁, s₂, s₃)) :
    loadIndex cfg disk 0 = .ok s₁ ∧ s₁.storeBlock cfg idx b true = (s₂, true) ∧
      loadIndex cfg s₂.disk 0 = .ok s₃ := by
  rw [storeBetween] at h
  split at h
  · cases h
  · next t₁ h₁ =>
      split at h
      · cases h
      · next t₂ h₂ =>
          split at h
          · cases h
          · next t₃ h₃ =>
              cases h
              exact ⟨(loadIndex_quick ..).trans h₁, h₂, (loadIndex_quick ..).trans h₃⟩

attribute [local instance] stampCrypto

/-- One torn byte is enough. -/
theorem recovers_iff_whole_byte :
    ¬ ∀ cfg whole opening more s₁ s₂ s₃, cfg.network = .regtest →
      Restarted cfg whole [0] opening more s₁ s₂ s₃ →
      s₃.Recovers s₂.disk.blocks (whole ++ (opening ++ more)) := by
  intro hall
  have hone : ([0] : Bytes).length < 44 := by decide
  exact absurd ((recovers_iff_whole .regtest hone).1.mp hall) (List.cons_ne_nil _ _)

def genesisPosition : Position where
  hash := regtestGenesis.header.hash
  pos := 0
  len := UInt32.ofNat regtestGenesis.coreBytes.length

/-- What a node leaves that stopped while it wrote the position of its first
block: the header and the block, and twenty bytes of the position. -/
def tornDisk : Disk where
  headers := regtestGenesis.header.write ++ firstBlock.header.write
  blocks := regtestGenesis.coreBytes ++ firstBlock.coreBytes
  blockpos := genesisPosition.write ++ firstBlock.header.hash.bytes.take 20

/-- The record the node writes after the crash. -/
def firstPosition : Position where
  hash := firstBlock.header.hash
  pos := UInt64.ofNat tornDisk.blocks.length
  len := UInt32.ofNat firstBlock.coreBytes.length

/-- The files are as they were after the first start, and the block is gone after
the second. -/
def hides (r : Chainstate × Chainstate × Chainstate) : Bool :=
  r.1.disk.blockpos == tornDisk.blockpos && r.1.disk.blocks.length == tornDisk.blocks.length &&
    decide (firstPosition.Fits r.2.1.disk.blocks) &&
    r.2.2.dataOf firstBlock.header.hash == some (false, 0, 0)

def tornRun : { r : Option (Chainstate × Chainstate × Chainstate) //
    r = storeBetween (regtestWith quiet) tornDisk firstBlock.header.hash firstBlock ∧
      r.any hides = true } :=
  ⟨storeBetween (regtestWith quiet) tornDisk firstBlock.header.hash firstBlock, rfl,
    by decide +kernel⟩

theorem tornDisk_blockpos :
    tornDisk.blockpos = writeAll [genesisPosition] ++ firstBlock.header.hash.bytes.take 20 := by
  rw [writeAll, List.flatMap_singleton, tornDisk]

/-- The whole record the node wrote between its starts does not bring the block
back: the second start does not know that it has its data. -/
theorem torn_position_hides_block :
    ∃ s₁ s₂ s₃, Restarted (regtestWith quiet) [genesisPosition]
        (firstBlock.header.hash.bytes.take 20) [] [firstPosition] s₁ s₂ s₃ ∧
      s₃.dataOf firstBlock.header.hash = some (false, 0, 0) ∧
      ¬ s₃.Recovers s₂.disk.blocks ([genesisPosition] ++ ([] ++ [firstPosition])) := by
  obtain ⟨r, hr, hrun⟩ := tornRun
  cases r with
  | none => cases hrun
  | some r =>
      obtain ⟨s₁, s₂, s₃⟩ := r
      obtain ⟨hload₁, hst, hload₃⟩ := storeBetween_some hr.symm
      rw [Option.any_some, hides] at hrun
      simp only [Bool.and_eq_true, beq_iff_eq, decide_eq_true_eq] at hrun
      obtain ⟨⟨⟨hblockpos, hblocks⟩, hfits⟩, hdata⟩ := hrun
      have happ : Appends (regtestWith quiet) s₁ [firstPosition] s₂ := by
        have h := Appends.store (Appends.none (s := s₁)) hst
        rw [hblocks] at h
        exact h
      refine ⟨s₁, s₂, s₃, ⟨⟨tornDisk, 0, tornDisk_blockpos, hload₁, ?_⟩, happ, 0, hload₃⟩, hdata,
        fun hrec => ?_⟩
      · rw [hblockpos]
        exact (List.append_nil _).symm
      · have hmem : firstPosition.hash ∈ s₃.index := by
          rw [dataOf] at hdata
          obtain ⟨i, hi, -⟩ := Option.map_eq_some_iff.mp hdata
          exact AList.lookup_isSome.mp (Option.isSome_of_eq_some hi)
        have hlast : lastOf ([genesisPosition] ++ ([] ++ [firstPosition])) s₂.disk.blocks
            firstPosition.hash = some firstPosition := by
          show [firstPosition, genesisPosition].find? _ = _
          rw [List.find?_cons, decide_eq_true ⟨rfl, hfits⟩]
        have hback := hrec _ hmem _ hlast
        rw [show firstPosition.hash = firstBlock.header.hash from rfl, hdata] at hback
        cases hback

end Chainstate

end QuantCore
