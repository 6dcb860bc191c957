import Mathlib.Algebra.Order.BigOperators.Group.List
import QuantCore.Light.Wallet
import QuantCore.Net.Utxos
import QuantCore.Proofs.Canonical
import QuantCore.Proofs.Frames
import QuantCore.Proofs.Inclusion
import QuantCore.Proofs.Indexes
import QuantCore.Proofs.Sizes

/-!
# Replies that a light client can take

A frame carries at most 4 MiB, and a client reads at most 100000 entries of a
kind, transactions of at most a frame's size and Merkle proofs of at most 64
hashes. A reply keeps to all of them just when its parts add up to a frame: what
a part takes is known from the coins, the blocks and the pending transactions,
and everything but the sum follows from it. How many coins fit depends on how
large their transactions are and how many the blocks hold, and that is said in
both directions; a thousand coins of one large transaction do not fit.
-/

namespace QuantCore

open Codec ByteReader

/-! ## Merkle proofs -/

section

variable [Crypto]

theorem merkleProofLoop_length {k : Nat} {l : List Hash256} (hk : l.length ≤ k) (i : Nat) :
    (merkleProofLoop k l i).length = Nat.clog 2 l.length := by
  induction k generalizing l i with
  | zero =>
      rw [List.length_eq_zero_iff.mp (Nat.le_zero.mp hk)]
      rfl
  | succ k ih =>
      by_cases hl : 1 < l.length
      · have hhalf : (merkleLevel l).length ≤ k := by
          rw [merkleLevel_length]
          omega
        rw [merkleProofLoop_level k hl, List.length_cons, ih hhalf, merkleLevel_length,
          Nat.clog_of_two_le (by decide) hl]
        rfl
      · rw [Nat.clog_of_right_le_one (by omega)]
        rcases l with _ | ⟨a, _ | ⟨b, l⟩⟩
        · rfl
        · rfl
        · exact absurd (Nat.le_add_left 2 l.length) hl

/-- A Merkle proof has a hash for each level. -/
theorem merkleProof_length (l : List Hash256) (i : Nat) :
    (merkleProof l i).length = Nat.clog 2 l.length :=
  merkleProofLoop_length (Nat.le_refl _) i

end

/-! ## What the client reads -/

theorem writeUnconf_length (e : OutPoint × TxOut) :
    (writeUnconf e).length = opSize e.1 + outSize e.2 := by
  rw [writeUnconf, List.length_append, writeOutPoint_length, writeTxOut_length]


theorem decodes_utxoOp (o : OutPoint) : Decodes readUtxoOp (writeOutPoint o) o := by
  have h : Decodes readUtxoOp (writeOutPoint o) ⟨o.txid, o.n.toUInt64.toUInt32⟩ :=
    (decodes_hash o.txid).bind (decodes_varint _).bind_pure
  rwa [toUInt32_toUInt64] at h

theorem decodes_utxoProof {u : UtxoProof} (hcore : u.txCore.length ≤ maxMessage)
    (hmerkle : u.merkle.length ≤ 64) : Decodes UtxoProof.read u.write u := by
  have hflag : ((if u.coin.coinbase then 1 else 0 : UInt8) != 0) = u.coin.coinbase := by
    cases u.coin.coinbase <;> rfl
  have h : Decodes UtxoProof.read u.write
      { u with
        coin := ⟨u.coin.out, u.coin.height, (if u.coin.coinbase then 1 else 0 : UInt8) != 0⟩
        txIndex := u.txIndex.toUInt64.toUInt32
        txCount := u.txCount.toUInt64.toUInt32 } := by
    rw [UtxoProof.write]
    simp only [List.append_assoc]
    exact (decodes_utxoOp u.op).bind ((decodes_txOut u.coin.out).bind
      ((decodes_varint u.coin.height).bind ((decodes_u8 _).bind ((decodes_hash u.block).bind
        ((decodes_bytes hcore).bind ((decodes_varint u.txIndex.toUInt64).bind
          ((decodes_varint u.txCount.toUInt64).bind
            (decodes_readList (by decide) hmerkle fun h _ => decodes_hash h).bind_pure)))))))
  rwa [hflag, toUInt32_toUInt64, toUInt32_toUInt64] at h

/-- A pending output of a reply, as `takeUnconfirmed` reads it. -/
def readUnconf : ByteReader (OutPoint × TxOut) := do
  let op ← readUtxoOp
  let out ← readTxOut
  pure (op, out)

theorem decodes_unconf (e : OutPoint × TxOut) :
    Decodes readUnconf (writeUnconf e) e :=
  (decodes_utxoOp e.1).bind (decodes_txOut e.2).bind_pure

namespace P2P

/-! ## What a reply holds -/

/-- A coin whose transaction is found: its block, and the place there. -/
structure Served where
  op : OutPoint
  coin : Coin
  block : Hash256
  body : Block
  index : Nat

namespace Served

/-- The transaction, without its signatures. -/
def core (e : Served) : Bytes := (e.body.txs.getD e.index {}).writeCore

def proof [Crypto] (e : Served) : UtxoProof := proofAt e.op e.coin e.block e.body e.index

/-- A proof takes what its coin takes, its transaction, and a hash for each level
of the block's Merkle tree. -/
def size (e : Served) : Nat :=
  opSize e.op + outSize e.coin.out + varintSize e.coin.height + 1 + 32 +
    (varintSize (UInt64.ofNat e.core.length) + e.core.length) +
    varintSize (UInt32.ofNat e.index).toUInt64 +
    varintSize (UInt32.ofNat e.body.txs.length).toUInt64 +
    varintSize (UInt64.ofNat (Nat.clog 2 e.body.txs.length)) +
    32 * Nat.clog 2 e.body.txs.length

theorem core_le_size (e : Served) : e.core.length ≤ e.size := by
  rw [size]
  omega

/-- What is not the transaction nor the Merkle path takes little. -/
theorem size_le {core depth : Nat} {e : Served} (hcore : e.core.length ≤ core)
    (htxs : e.body.txs.length ≤ 2 ^ depth) : e.size ≤ 185 + core + 32 * depth := by
  have hop := opSize_le e.op
  have hout := outSize_le e.coin.out
  have hheight := varintSize_le_ten e.coin.height
  have hlen := varintSize_le_ten (UInt64.ofNat e.core.length)
  have hindex := varintSize_le_five (UInt32.ofNat e.index)
  have hcount := varintSize_le_five (UInt32.ofNat e.body.txs.length)
  have hpath := varintSize_le_ten (UInt64.ofNat (Nat.clog 2 e.body.txs.length))
  have hdepth : Nat.clog 2 e.body.txs.length ≤ depth := Nat.clog_le_of_le_pow htxs
  rw [size]
  omega

variable [Crypto]

theorem proof_length (e : Served) : e.proof.write.length = e.size := by
  have hmerkle : e.proof.merkle.length = Nat.clog 2 e.body.txs.length :=
    (merkleProof_length _ _).trans (by rw [List.length_map])
  have hflag : (Writer.u8 (if e.proof.coin.coinbase then 1 else 0)).length = 1 := rfl
  have hblock : (Writer.hash e.proof.block).length = 32 := Hash256.bytes_length _
  have hcore : (Writer.bytes e.proof.txCore).length =
      varintSize (UInt64.ofNat e.core.length) + e.core.length := by
    rw [Writer.bytes, List.length_append, size_length]
    rfl
  rw [UtxoProof.write]
  simp only [List.length_append, writeOutPoint_length, writeTxOut_length, varint_length,
    size_length, hashes_length, hmerkle, hflag, hblock, hcore]
  rfl

end Served

variable [Crypto] (cfg : Config) (enum : Finset OutPoint → List OutPoint) (s : Chainstate)
  (m : Mempool)

omit [Crypto] in
/-- The coins at the addresses. -/
def coinsAt (addrs : List Hash256) : List (OutPoint × Coin) :=
  addrs.flatMap fun a => (s.coinsForAddress enum a).getD []

def serve (c : OutPoint × Coin) : Option Served :=
  (txPlace cfg s c.1).map fun p => ⟨c.1, c.2, p.1, p.2.1, p.2.2⟩

/-- Those of the coins whose transactions are found, as many as a reply proves. -/
def servedCoins (addrs : List Hash256) : List Served :=
  ((coinsAt enum s addrs).filterMap (serve cfg s)).take maxReplyProofs

omit [Crypto] in
/-- The outputs at the addresses of pending transactions that no pending
transaction spends. -/
def pendingOuts (addrs : List Hash256) : List (OutPoint × TxOut) :=
  m.all.flatMap fun e =>
    (e.tx.outs.zipIdx.map fun o => ((⟨e.txid, UInt32.ofNat o.2⟩ : OutPoint), o.1)).filter fun o =>
      o.2.addr ∈ addrs ∧ m.spends o.1 = false

omit [Crypto] in
/-- The outputs at the addresses of pending transactions, spent or not. -/
def outsAt (addrs : List Hash256) : List TxOut :=
  m.all.flatMap fun e => e.tx.outs.filter fun o => o.addr ∈ addrs

/-- No coin at the addresses is of a transaction of more than `core` bytes, or of
a block of more than `2 ^ depth` transactions. -/
def Within (addrs : List Hash256) (core depth : Nat) : Prop :=
  ∀ c ∈ coinsAt enum s addrs, ∀ bh b i, txPlace cfg s c.1 = some (bh, b, i) →
    (b.txs.getD i {}).writeCore.length ≤ core ∧ b.txs.length ≤ 2 ^ depth

/-- Every coin at the addresses is of a transaction that is found and takes at
least `core` bytes. -/
def Beyond (addrs : List Hash256) (core : Nat) : Prop :=
  ∀ c ∈ coinsAt enum s addrs, ∃ bh b i, txPlace cfg s c.1 = some (bh, b, i) ∧
    core ≤ (b.txs.getD i {}).writeCore.length

omit [Crypto] in
/-- Room for the proofs of so many coins, for each once more that it is spent, and
for so many pending outputs. -/
def room (coins core depth outs : Nat) : Nat :=
  70 + min maxReplyProofs coins * (222 + core + 32 * depth) + outs * 112

/-- A height, a hash, and three counted sections. -/
def replySize (addrs : List Hash256) : Nat :=
  let served := servedCoins cfg enum s addrs
  let pending := (served.map Served.op).filter m.spends
  let outs := pendingOuts m addrs
  8 + (32 + ((varintSize (UInt64.ofNat served.length) + (served.map Served.size).sum) +
    ((varintSize (UInt64.ofNat pending.length) + (pending.map opSize).sum) +
      (varintSize (UInt64.ofNat outs.length) +
        (outs.map fun o => opSize o.1 + outSize o.2).sum))))

/-! ## What a client can take -/

omit [Crypto] in
/-- A reply read under the limits of `refresh_wallet` and of `UtxoProof::read`. -/
def readReply : ByteReader (List UtxoProof × List OutPoint × List (OutPoint × TxOut)) := do
  LightClient.readUtxosHead
  let proofs ← readList maxUtxoEntries UtxoProof.read
  let spentPending ← readList maxUtxoEntries readUtxoOp
  let unconf ← readList maxUtxoEntries readUnconf
  pure (proofs, spentPending, unconf)

/-- The payload of a reply fits a frame, the client's `FrameReader` takes the
frame, and the client reads all of it. -/
structure Respects (p : ChainParams) (r : UtxoReply) (payload : Bytes) : Prop where
  size : payload.length ≤ maxMessage
  framed : FrameReader.next p (frameMessage p Cmd.utxos payload) = .item (Cmd.utxos, payload) []
  read : readReply payload = .ok ((r.proofs, r.spentPending, r.unconf), [])

/-! ## The loops -/

variable {cfg enum s m}

theorem foldl_addProof (cs : List (OutPoint × Coin)) {ps : List UtxoProof}
    (hps : ps.length ≤ maxReplyProofs) :
    cs.foldl (addProof cfg s) ps =
      (ps ++ (cs.filterMap (serve cfg s)).map Served.proof).take maxReplyProofs := by
  induction cs generalizing ps with
  | nil =>
      rw [List.foldl_nil, List.filterMap_nil, List.map_nil, List.append_nil,
        List.take_of_length_le hps]
  | cons c cs ih =>
      rw [List.foldl_cons, List.filterMap_cons]
      by_cases hfull : ps.length ≥ maxReplyProofs
      · have hround : addProof cfg s ps c = ps := by rw [addProof, if_pos hfull]
        rw [hround, ih hps, List.take_append_of_le_length hfull,
          List.take_append_of_le_length hfull]
      · have hlt : ps.length < maxReplyProofs := Nat.lt_of_not_le hfull
        cases hp : txPlace cfg s c.1 with
        | none =>
            have hround : addProof cfg s ps c = ps := by rw [addProof, if_neg hfull, hp]
            have hserve : serve cfg s c = none := by rw [serve, hp, Option.map_none]
            rw [hround, ih hps, hserve]
        | some place =>
            have hround : addProof cfg s ps c =
                ps ++ [proofAt c.1 c.2 place.1 place.2.1 place.2.2] := by
              rw [addProof, if_neg hfull, hp]
            have hserve : serve cfg s c = some ⟨c.1, c.2, place.1, place.2.1, place.2.2⟩ := by
              rw [serve, hp, Option.map_some]
            rw [hround, ih (by rw [List.length_append]; exact hlt), hserve, List.append_assoc]
            rfl

omit [Crypto] in
theorem foldl_addUnconf (addrs : List Hash256) (txid : Hash256) (os : List (TxOut × Nat))
    (v : List (OutPoint × TxOut)) :
    os.foldl (addUnconf m addrs txid) v =
      v ++ (os.map fun o => ((⟨txid, UInt32.ofNat o.2⟩ : OutPoint), o.1)).filter fun o =>
        o.2.addr ∈ addrs ∧ m.spends o.1 = false := by
  induction os generalizing v with
  | nil => exact (List.append_nil v).symm
  | cons o os ih =>
      rw [List.foldl_cons, ih, List.map_cons, List.filter_cons, addUnconf]
      simp only [decide_eq_true_eq]
      split
      · rw [List.append_assoc]
        rfl
      · rfl

omit [Crypto] in
theorem unconfirmed_eq (addrs : List Hash256) : unconfirmed m addrs = pendingOuts m addrs := by
  have hfold : ∀ (es : List MempoolEntry) (v : List (OutPoint × TxOut)),
      es.foldl (fun v e => e.tx.outs.zipIdx.foldl (addUnconf m addrs e.txid) v) v =
        v ++ es.flatMap fun e =>
          (e.tx.outs.zipIdx.map fun o =>
            ((⟨e.txid, UInt32.ofNat o.2⟩ : OutPoint), o.1)).filter fun o =>
              o.2.addr ∈ addrs ∧ m.spends o.1 = false := by
    intro es
    induction es with
    | nil => exact fun v => (List.append_nil v).symm
    | cons e es ih =>
        intro v
        rw [List.foldl_cons, ih, foldl_addUnconf, List.flatMap_cons, List.append_assoc]
  exact (hfold m.all []).trans (List.nil_append _)

omit [Crypto] in
/-- The lookups of the addresses, where none throws, give all their coins. -/
theorem flatten_coinsAt {addrs : List Hash256} {cs : List (List (OutPoint × Coin))}
    (h : addrs.mapM (s.coinsForAddress enum) = some cs) : cs.flatten = coinsAt enum s addrs := by
  induction addrs generalizing cs with
  | nil =>
      cases h
      rfl
  | cons a addrs ih =>
      rw [List.mapM_cons] at h
      obtain ⟨coins, hcoins, h⟩ := Option.bind_eq_some_iff.mp h
      obtain ⟨rest, hrest, h⟩ := Option.bind_eq_some_iff.mp h
      cases h
      rw [List.flatten_cons, ih hrest, coinsAt, coinsAt, List.flatMap_cons, hcoins,
        Option.getD_some]

omit [Crypto] in
theorem mapM_isSome {addrs : List Hash256}
    (h : ∀ a ∈ addrs, ∃ coins, s.coinsForAddress enum a = some coins) :
    ∃ cs, addrs.mapM (s.coinsForAddress enum) = some cs := by
  induction addrs with
  | nil => exact ⟨[], rfl⟩
  | cons a addrs ih =>
      rw [List.forall_mem_cons] at h
      obtain ⟨coins, hcoins⟩ := h.1
      obtain ⟨cs, hcs⟩ := ih h.2
      refine ⟨coins :: cs, ?_⟩
      rw [List.mapM_cons, hcoins, hcs]
      rfl

/-- A transaction is found in a block that the decoder let through. -/
theorem txPlace_some {op : OutPoint} {bh : Hash256} {b : Block} {i : Nat}
    (h : txPlace cfg s op = some (bh, b, i)) :
    s.findTxBlock op.txid = some bh ∧ (∃ w, s.readBlock cfg bh false = some (b, w)) ∧
      i < b.txs.length := by
  rw [txPlace] at h
  split at h
  · cases h
  · next bh' hbh =>
      split at h
      · cases h
      · next b' w hread =>
          simp only [] at h
          split at h
          · cases h
          · next hlt =>
              cases h
              exact ⟨hbh, ⟨w, hread⟩, Nat.lt_of_not_le hlt⟩

theorem readBlock_limits {bh : Hash256} {b : Block} {w : Bool}
    (h : s.readBlock cfg bh false = some (b, w)) : b.Limits := by
  rw [Chainstate.readBlock] at h
  split at h
  · cases h
  · split at h
    · cases h
    · split at h
      · cases h
      · next blk rest hread =>
          split at h
          · cases h
          · cases h
            exact (canonical_blockCore _ _ _ hread).2.1

/-- The Merkle tree of a block is no higher than a proof may be. -/
theorem served_depth {addrs : List Hash256} {e : Served}
    (he : e ∈ servedCoins cfg enum s addrs) : Nat.clog 2 e.body.txs.length ≤ 64 := by
  obtain ⟨c, -, hserve⟩ := List.mem_filterMap.mp (List.mem_of_mem_take he)
  obtain ⟨⟨bh, b, i⟩, hplace, rfl⟩ := Option.map_eq_some_iff.mp hserve
  obtain ⟨-, ⟨w, hread⟩, -⟩ := txPlace_some hplace
  have hmax : maxBlockSize / 40 ≤ 2 ^ 64 := by decide
  exact Nat.clog_le_of_le_pow (Nat.le_trans (readBlock_limits hread).txs hmax)

/-! ## What a reply takes, and what is read of it -/

/-- The reply of a state in which no lookup of coins throws. -/
def replyOf (cfg : Config) (enum : Finset OutPoint → List OutPoint) (s : Chainstate) (m : Mempool)
    (addrs : List Hash256) : UtxoReply :=
  { height := s.height, tip := s.tip
    proofs := (servedCoins cfg enum s addrs).map Served.proof
    spentPending := ((servedCoins cfg enum s addrs).map Served.op).filter m.spends
    unconf := pendingOuts m addrs }

theorem utxoReply_some {addrs : List Hash256} {r : UtxoReply}
    (h : utxoReply cfg enum s m addrs = some r) : r = replyOf cfg enum s m addrs := by
  obtain ⟨ps, hps, rfl⟩ := Option.map_eq_some_iff.mp h
  obtain ⟨cs, hcs, rfl⟩ := Option.map_eq_some_iff.mp hps
  have hproofs : cs.flatten.foldl (addProof cfg s) [] =
      (servedCoins cfg enum s addrs).map Served.proof := by
    rw [foldl_addProof _ (Nat.zero_le _), List.nil_append, flatten_coinsAt hcs, servedCoins,
      List.map_take]
  rw [hproofs, unconfirmed_eq, List.map_map]
  rfl

theorem replyOf_length (addrs : List Hash256) :
    (replyOf cfg enum s m addrs).write.length = replySize cfg enum s m addrs := by
  have hheight : (Writer.u64le (UInt64.ofNat s.height)).length = 8 := leBytes_length _ _
  have htip : (Writer.hash s.tip).length = 32 := Hash256.bytes_length _
  have hproofs := section_length Served.proof_length (servedCoins cfg enum s addrs)
  have hspent := section_length writeOutPoint_length
    (((servedCoins cfg enum s addrs).map Served.op).filter m.spends)
  have hunconf := section_length writeUnconf_length (pendingOuts m addrs)
  have hlen : ((servedCoins cfg enum s addrs).map Served.proof).length =
      (servedCoins cfg enum s addrs).length := List.length_map _
  have hparts : ∀ a b c d e : Bytes, (a ++ (b ++ (c ++ (d ++ e)))).length =
      a.length + (b.length + (c.length + (d.length + e.length))) := by
    intro a b c d e
    simp only [List.length_append]
  rw [UtxoReply.write, hparts, replyOf]
  simp only [hlen, List.flatMap_map]
  rw [hproofs, hspent, hunconf, hheight, htip]
  rfl

theorem replyOf_read {addrs : List Hash256} (h : replySize cfg enum s m addrs ≤ maxMessage) :
    readReply (replyOf cfg enum s m addrs).write =
      .ok (((replyOf cfg enum s m addrs).proofs, (replyOf cfg enum s m addrs).spentPending,
        (replyOf cfg enum s m addrs).unconf), []) := by
  have hmax : maxUtxoEntries < 2 ^ 64 := by decide
  have hserved : (servedCoins cfg enum s addrs).length ≤ maxUtxoEntries :=
    Nat.le_trans (List.length_take_le _ _) (by decide)
  -- Each part is below the sum, which is below a frame.
  have hsizes : ((servedCoins cfg enum s addrs).map Served.size).sum ≤ maxMessage := by
    rw [replySize] at h
    omega
  have houts : ((pendingOuts m addrs).map fun o => opSize o.1 + outSize o.2).sum ≤
      maxMessage := by
    rw [replySize] at h
    omega
  have hproofs : (replyOf cfg enum s m addrs).proofs.length ≤ maxUtxoEntries := by
    rw [replyOf, List.length_map]
    exact hserved
  have hproof : ∀ u ∈ (replyOf cfg enum s m addrs).proofs, Decodes UtxoProof.read u.write u := by
    intro u hu
    obtain ⟨e, he, rfl⟩ := List.mem_map.mp hu
    have hsize := List.le_sum_of_mem (List.mem_map_of_mem (f := Served.size) he)
    refine decodes_utxoProof (Nat.le_trans e.core_le_size (Nat.le_trans hsize hsizes)) ?_
    rw [Served.proof, proofAt, merkleProof_length, List.length_map]
    exact served_depth he
  have hunconf : (replyOf cfg enum s m addrs).unconf.length ≤ maxUtxoEntries := by
    have hsum := List.card_nsmul_le_sum
      ((pendingOuts m addrs).map fun o => opSize o.1 + outSize o.2) 67 fun x hx => by
        obtain ⟨o, -, rfl⟩ := List.mem_map.mp hx
        rw [opSize, outSize, varintSize, varintSize]
        split <;> omega
    rw [List.length_map, nsmul_eq_mul, Nat.cast_id] at hsum
    show (pendingOuts m addrs).length ≤ 100000
    have hframe : maxMessage = 4194304 := rfl
    omega
  have hspent : (replyOf cfg enum s m addrs).spentPending.length ≤ maxUtxoEntries :=
    Nat.le_trans (List.length_filter_le _ _) (by rw [List.length_map]; exact hserved)
  have hhead : Decodes LightClient.readUtxosHead
      (Writer.u64le (UInt64.ofNat s.height) ++ Writer.hash s.tip) () :=
    (decodes_u64le _).bind (decodes_hash _).bind_pure
  rw [UtxoReply.write, ← List.append_assoc]
  exact Decodes.run (hhead.bind ((decodes_readList hmax hproofs hproof).bind
    ((decodes_readList hmax hspent fun o _ => decodes_utxoOp o).bind
      (decodes_readList hmax hunconf fun o _ => decodes_unconf o).bind_pure)))

/-! ## How many coins fit -/

/-- At most as many coins are proved as there are, and never more than a thousand. -/
theorem servedCoins_length_le (addrs : List Hash256) :
    (servedCoins cfg enum s addrs).length ≤ min maxReplyProofs (coinsAt enum s addrs).length := by
  rw [servedCoins, List.length_take]
  exact min_le_min_left _ (List.length_filterMap_le _ _)

omit [Crypto] in
theorem pendingOuts_length_le (addrs : List Hash256) :
    (pendingOuts m addrs).length ≤ (outsAt m addrs).length := by
  rw [pendingOuts, outsAt, List.length_flatMap, List.length_flatMap]
  refine List.sum_le_sum fun e _ => ?_
  have houts : (e.tx.outs.filter fun o => o.addr ∈ addrs).length =
      ((e.tx.outs.zipIdx.map fun o =>
        ((⟨e.txid, UInt32.ofNat o.2⟩ : OutPoint), o.1)).filter fun o =>
          o.2.addr ∈ addrs).length := by
    rw [List.filter_map, List.length_map, ← List.countP_eq_length_filter,
      ← List.countP_eq_length_filter]
    conv_lhs => rw [← List.zipIdx_map_fst 0 e.tx.outs, List.countP_map]
    rfl
  rw [houts]
  refine (List.Sublist.length_le (List.monotone_filter_right _ fun o ho => ?_))
  rw [decide_eq_true_eq] at ho ⊢
  exact ho.1

theorem served_size_le {addrs : List Hash256} {core depth : Nat}
    (h : Within cfg enum s addrs core depth) :
    ∀ e ∈ servedCoins cfg enum s addrs, e.size ≤ 185 + core + 32 * depth := by
  intro e he
  obtain ⟨c, hc, hserve⟩ := List.mem_filterMap.mp (List.mem_of_mem_take he)
  obtain ⟨⟨bh, b, i⟩, hplace, rfl⟩ := Option.map_eq_some_iff.mp hserve
  obtain ⟨hcore, htxs⟩ := h c hc bh b i hplace
  exact Served.size_le hcore htxs

/-- The limits on what is found bound the reply. -/
theorem replySize_le {addrs : List Hash256} {core depth : Nat}
    (h : Within cfg enum s addrs core depth) :
    replySize cfg enum s m addrs ≤
      room (coinsAt enum s addrs).length core depth (outsAt m addrs).length := by
  have hlen : (servedCoins cfg enum s addrs).length ≤
      min maxReplyProofs (coinsAt enum s addrs).length := servedCoins_length_le addrs
  have hproofs := List.sum_le_card_nsmul ((servedCoins cfg enum s addrs).map Served.size)
    (185 + core + 32 * depth) fun x hx => by
      obtain ⟨e, he, rfl⟩ := List.mem_map.mp hx
      exact served_size_le h e he
  have hspent := List.sum_le_card_nsmul
    ((((servedCoins cfg enum s addrs).map Served.op).filter m.spends).map opSize) 37 fun x hx => by
      obtain ⟨o, -, rfl⟩ := List.mem_map.mp hx
      exact opSize_le o
  have houts := List.sum_le_card_nsmul
    ((pendingOuts m addrs).map fun o => opSize o.1 + outSize o.2) 112 fun x hx => by
      obtain ⟨o, -, rfl⟩ := List.mem_map.mp hx
      exact Nat.add_le_add (opSize_le o.1) (outSize_le o.2)
  have hfilter : (((servedCoins cfg enum s addrs).map Served.op).filter m.spends).length ≤
      (servedCoins cfg enum s addrs).length :=
    Nat.le_trans (List.length_filter_le _ _) (List.length_map _).le
  have hpending := pendingOuts_length_le (m := m) addrs
  have hcount := varintSize_le_ten (UInt64.ofNat (servedCoins cfg enum s addrs).length)
  have hcount' := varintSize_le_ten
    (UInt64.ofNat (((servedCoins cfg enum s addrs).map Served.op).filter m.spends).length)
  have hcount'' := varintSize_le_ten (UInt64.ofNat (pendingOuts m addrs).length)
  rw [List.length_map, nsmul_eq_mul, Nat.cast_id] at hproofs hspent houts
  have hproofs' := Nat.mul_le_mul_right (185 + core + 32 * depth) hlen
  have hspent' := Nat.mul_le_mul_right 37 (Nat.le_trans hfilter hlen)
  have houts' := Nat.mul_le_mul_right 112 hpending
  have hsplit : min maxReplyProofs (coinsAt enum s addrs).length * (222 + core + 32 * depth) =
      min maxReplyProofs (coinsAt enum s addrs).length * (185 + core + 32 * depth) +
        min maxReplyProofs (coinsAt enum s addrs).length * 37 := by
    rw [← Nat.mul_add]
    congr 1
    omega
  rw [replySize, room]
  omega

/-- Where every coin's transaction is found and none is small, nor is the reply. -/
theorem le_replySize {addrs : List Hash256} {core : Nat} (h : Beyond cfg enum s addrs core) :
    min maxReplyProofs (coinsAt enum s addrs).length * core ≤ replySize cfg enum s m addrs := by
  have hserve : ∀ c ∈ coinsAt enum s addrs, ∃ e, serve cfg s c = some e ∧ core ≤ e.size := by
    intro c hc
    obtain ⟨bh, b, i, hplace, hcore⟩ := h c hc
    exact ⟨⟨c.1, c.2, bh, b, i⟩, by rw [serve, hplace, Option.map_some],
      Nat.le_trans hcore (Served.core_le_size ⟨c.1, c.2, bh, b, i⟩)⟩
  have hall : ∀ e ∈ servedCoins cfg enum s addrs, core ≤ e.size := by
    intro e he
    obtain ⟨c, hc, hfound⟩ := List.mem_filterMap.mp (List.mem_of_mem_take he)
    obtain ⟨e', he', hle⟩ := hserve c hc
    rw [hfound] at he'
    cases he'
    exact hle
  have hlen : (servedCoins cfg enum s addrs).length =
      min maxReplyProofs (coinsAt enum s addrs).length := by
    have hsome : ∀ c ∈ coinsAt enum s addrs, (serve cfg s c).isSome = true := by
      intro c hc
      obtain ⟨e, he, -⟩ := hserve c hc
      rw [he]
      rfl
    rw [servedCoins, List.length_take, List.length_filterMap_eq_countP,
      List.countP_eq_length.mpr hsome]
  have hsum := List.card_nsmul_le_sum ((servedCoins cfg enum s addrs).map Served.size) core
    fun x hx => by
      obtain ⟨e, he, rfl⟩ := List.mem_map.mp hx
      exact hall e he
  rw [List.length_map, hlen, nsmul_eq_mul, Nat.cast_id] at hsum
  rw [replySize]
  omega

/-- For every state and every mempool, the reply to a request is one the client
can take if the coins at the addresses, their transactions, the blocks' Merkle
trees and the pending outputs leave it room, is none if a thousand coins or as
many as there are are of transactions that alone exceed a frame, and is one just
when its parts add up to at most a frame. -/
theorem replies_respect_limits {req payload : Bytes}
    (h : buildUtxoReply cfg enum s m req = .ok payload) :
    ∃ addrs rest r, readGetUtxos req = .ok (addrs, rest) ∧
      utxoReply cfg enum s m addrs = some r ∧ payload = r.write ∧
      (∀ core depth, Within cfg enum s addrs core depth →
        room (coinsAt enum s addrs).length core depth (outsAt m addrs).length ≤ maxMessage →
          Respects cfg.params r payload) ∧
      (∀ core, Beyond cfg enum s addrs core →
        maxMessage < min maxReplyProofs (coinsAt enum s addrs).length * core →
          ¬ Respects cfg.params r payload) ∧
      (Respects cfg.params r payload ↔ replySize cfg enum s m addrs ≤ maxMessage) := by
  rw [buildUtxoReply] at h
  split at h
  · cases h
  · next addrs rest hreq =>
      split at h
      · cases h
      · next r hr =>
          cases h
          have hlen : (replyOf cfg enum s m addrs).write.length = replySize cfg enum s m addrs :=
            replyOf_length addrs
          obtain rfl := utxoReply_some hr
          have hexact : Respects cfg.params (replyOf cfg enum s m addrs)
              (replyOf cfg enum s m addrs).write ↔ replySize cfg enum s m addrs ≤ maxMessage := by
            refine ⟨fun hrespects => hlen ▸ hrespects.size, fun hsize => ?_⟩
            have hle : (replyOf cfg enum s m addrs).write.length ≤ maxMessage := hlen ▸ hsize
            exact ⟨hle, FrameReader.next_frameMessage _ hle, replyOf_read hsize⟩
          refine ⟨addrs, rest, _, hreq, hr, rfl, fun core depth hwithin hroom => ?_,
            fun core hbeyond hlarge hrespects => ?_, hexact⟩
          · exact hexact.mpr (Nat.le_trans (replySize_le hwithin) hroom)
          · have hsize := hexact.mp hrespects
            have hle := le_replySize (m := m) hbeyond
            omega

open Chainstate in
/-- In a state of a run every request that can be read gets a reply. -/
theorem reply_built {net : Network} {known : Block → Prop} (hs : Sources net known)
    {cfg : Config} (hnet : cfg.network = net) {o : Offers} (ho : ∀ b, o.Around net b → known b)
    {ph : Phase} {s : Chainstate} (h : Reaches cfg o (Orderly net known cfg o) ph s)
    {enum : Finset OutPoint → List OutPoint} (henum : ∀ l, ∀ x ∈ enum l, x ∈ l) (m : Mempool)
    {req rest : Bytes} {addrs : List Hash256} (hreq : readGetUtxos req = .ok (addrs, rest)) :
    buildUtxoReply cfg enum s m req = .ok (replyOf cfg enum s m addrs).write := by
  have haccounts := (h.orderly hs hnet ho fun _ _ hok => hok).1.accounts
  have hlookup : ∀ a ∈ addrs, ∃ coins, s.coinsForAddress enum a = some coins := by
    intro a _
    obtain ⟨coins, hcoins, -⟩ := haccounts.served henum a
    exact ⟨coins, hcoins⟩
  obtain ⟨cs, hcs⟩ := mapM_isSome hlookup
  have hr : ∃ r, utxoReply cfg enum s m addrs = some r := by
    rw [utxoReply, utxoProofs, hcs]
    exact ⟨_, rfl⟩
  obtain ⟨r, hr⟩ := hr
  rw [utxoReply_some hr] at hr
  simp only [buildUtxoReply, hreq, hr]

omit [Crypto] in
/-- What the loop over outpoints collects them with. -/
theorem coins_outpoints {os : List OutPoint} {coins : List (OutPoint × Coin)}
    (h : (os.mapM fun o => (s.utxo.lookup o).map fun c => (o, c)) = some coins) :
    coins.map Prod.fst = os := by
  induction os generalizing coins with
  | nil =>
      cases h
      rfl
  | cons o os ih =>
      rw [List.mapM_cons] at h
      obtain ⟨e, he, h⟩ := Option.bind_eq_some_iff.mp h
      obtain ⟨es, hes, h⟩ := Option.bind_eq_some_iff.mp h
      obtain ⟨c, -, rfl⟩ := Option.map_eq_some_iff.mp he
      cases h
      rw [List.map_cons, ih hes]

end P2P

end QuantCore

namespace QuantCore.Chainstate

attribute [local instance] stampCrypto

open P2P

/-! ## Coins of one large transaction -/

theorem readGetUtxos_write (addrs : List Hash256) (h : addrs.length ≤ maxUtxoAddrs) :
    readGetUtxos (writeGetUtxos addrs) = .ok (addrs, []) :=
  Codec.Decodes.run (decodes_readList (by decide) h fun a _ => ByteReader.decodes_hash a)

/-- The first block, with 111 outputs to one address: its coinbase takes more than
a thousandth of a frame. -/
def wideBlock : Block :=
  let b : Block := { txs := [{
    lockHeight := 1
    outs := List.replicate 111 ⟨268435456, qntAsset, 0⟩ }] }
  { b with header :=
      { prev := regtestGenesis.header.hash, time := 1790121720, bits := (limitBelow 255).toCompact
        merkleRoot := b.computeMerkleRoot, witnessRoot := b.computeWitnessRoot } }

def wideNode : Option Chainstate :=
  (boot (regtestWith quiet)).bind (take (regtestWith quiet) wideBlock)

/-- The coinbase's first coin. -/
def wideCoin : OutPoint := ⟨(wideBlock.txs.headD {}).txid, 0⟩

theorem limits_wide : wideBlock.Limits := by decide +kernel

theorem sources_wide : Sources .regtest ((loneOffer wideBlock).Around .regtest) :=
  sources_lone rfl limits_wide (by decide +kernel)

set_option maxRecDepth 100000 in
/-- The node takes the block; its coins are all of one transaction. -/
theorem reaches_wide : ∃ (s : Chainstate) (l : Finset OutPoint) (place : Hash256 × Block × Nat),
    Reaches (regtestWith quiet) (loneOffer wideBlock) (Orderly .regtest
      ((loneOffer wideBlock).Around .regtest) (regtestWith quiet) (loneOffer wideBlock)) .idle s ∧
    s.byAddr.lookup 0 = some l ∧ 5 ≤ l.card ∧ l.card ≤ 111 ∧ (∀ o ∈ l, o.txid = wideCoin.txid) ∧
    txPlace (regtestWith quiet) s wideCoin = some place ∧
    4195 ≤ (place.2.1.txs.getD place.2.2 {}).writeCore.length ∧
    (place.2.1.txs.getD place.2.2 {}).writeCore.length ≤ 5000 ∧ place.2.1.txs.length ≤ 1 := by
  have hrun : (wideNode.bind fun s => (s.byAddr.lookup 0).bind fun l =>
      (txPlace (regtestWith quiet) s wideCoin).map fun place =>
        decide (5 ≤ l.card ∧ l.card ≤ 111 ∧ (∀ o ∈ l, o.txid = wideCoin.txid) ∧
          4195 ≤ (place.2.1.txs.getD place.2.2 {}).writeCore.length ∧
          (place.2.1.txs.getD place.2.2 {}).writeCore.length ≤ 5000 ∧
          place.2.1.txs.length ≤ 1)) = some true := by
    decide +kernel
  obtain ⟨s, hs, hrun⟩ := Option.bind_eq_some_iff.mp hrun
  obtain ⟨l, hl, hrun⟩ := Option.bind_eq_some_iff.mp hrun
  obtain ⟨place, hplace, hrun⟩ := Option.map_eq_some_iff.mp hrun
  obtain ⟨hcard, hcard', htxid, hrest⟩ := of_decide_eq_true hrun
  exact ⟨s, l, place, (reaches_lone hs).mono fun ph s _ => orderly_lone wideBlock _ _ ph s, hl,
    hcard, hcard', htxid, hplace, hrest⟩

/-- What a request that names the address `n` times finds at the node: `n` times
the same coins, all of one transaction. -/
theorem wide_found (n : Nat) (hn : n ≤ maxUtxoAddrs) : ∃ (s : Chainstate) (payload : Bytes),
    Reaches (regtestWith quiet) (loneOffer wideBlock) (Orderly .regtest
      ((loneOffer wideBlock).Around .regtest) (regtestWith quiet) (loneOffer wideBlock)) .idle s ∧
    buildUtxoReply (regtestWith quiet) Finset.toList s {} (writeGetUtxos (List.replicate n 0)) =
      .ok payload ∧
    payload.length = replySize (regtestWith quiet) Finset.toList s {} (List.replicate n 0) ∧
    n * 5 ≤ (coinsAt Finset.toList s (List.replicate n 0)).length ∧
    (coinsAt Finset.toList s (List.replicate n 0)).length ≤ n * 111 ∧
    Within (regtestWith quiet) Finset.toList s (List.replicate n 0) 5000 0 ∧
    Beyond (regtestWith quiet) Finset.toList s (List.replicate n 0) 4195 := by
  obtain ⟨s, l, place, hs, hl, hcard, hcard', htxid, hplace, hcore, hcore', htxs⟩ := reaches_wide
  have henum : ∀ l : Finset OutPoint, ∀ x ∈ l.toList, x ∈ l := fun l x hx => Finset.mem_toList.mp hx
  have hbuilt := reply_built sources_wide rfl (fun _ h => h) hs henum {}
    (readGetUtxos_write (List.replicate n 0) (by rw [List.length_replicate]; exact hn))
  obtain ⟨coins, hcoins, -⟩ :=
    (hs.orderly sources_wide rfl (fun _ h => h) fun _ _ h => h).1.accounts.served henum 0
  have hops : coins.map Prod.fst = l.toList := by
    rw [coinsForAddress, hl] at hcoins
    exact coins_outpoints hcoins
  have hat : coinsAt Finset.toList s (List.replicate n 0) = (List.replicate n coins).flatten := by
    rw [coinsAt, List.flatMap, List.map_replicate, hcoins, Option.getD_some]
  have hlen : (coinsAt Finset.toList s (List.replicate n 0)).length = n * l.card := by
    rw [hat, List.length_flatten, List.map_replicate, List.sum_replicate_nat,
      ← List.length_map Prod.fst, hops, Finset.length_toList]
  have hplaces : ∀ c ∈ coinsAt Finset.toList s (List.replicate n 0),
      txPlace (regtestWith quiet) s c.1 = some place := by
    intro c hc
    rw [hat] at hc
    obtain ⟨cs, hcs, hmem⟩ := List.mem_flatten.mp hc
    rw [List.eq_of_mem_replicate hcs] at hmem
    have hmem : c.1 ∈ l := by
      rw [← Finset.mem_toList, ← hops]
      exact List.mem_map_of_mem hmem
    rw [← hplace, txPlace, txPlace, htxid c.1 hmem]
  refine ⟨s, _, hs, hbuilt, replyOf_length _, ?_, ?_, fun c hc bh b i hfound => ?_,
    fun c hc => ?_⟩
  · rw [hlen]
    exact Nat.mul_le_mul_left n hcard
  · rw [hlen]
    exact Nat.mul_le_mul_left n hcard'
  · rw [hplaces c hc] at hfound
    cases hfound
    exact ⟨hcore', htxs⟩
  · exact ⟨place.1, place.2.1, place.2.2, hplaces c hc, hcore⟩

/-- Asked once for the address the node gives a reply the client can take; asked
two hundred times in one request it does not. -/
theorem replies_respect_limits_wide : ∃ (s s' : Chainstate) (payload payload' : Bytes),
    buildUtxoReply (regtestWith quiet) Finset.toList s {} (writeGetUtxos (List.replicate 1 0)) =
      .ok payload ∧
    (∃ r, payload = r.write ∧ Respects (regtestWith quiet).params r payload) ∧
    buildUtxoReply (regtestWith quiet) Finset.toList s' {}
      (writeGetUtxos (List.replicate 200 0)) = .ok payload' ∧
    ∃ r, payload' = r.write ∧ ¬ Respects (regtestWith quiet).params r payload' := by
  have hcap : maxReplyProofs = 1000 := rfl
  have hframe : maxMessage = 4194304 := rfl
  obtain ⟨s, payload, -, hbuilt, -, -, hfew, hwithin, -⟩ := wide_found 1 (by decide)
  obtain ⟨s', payload', -, hbuilt', -, hmany, -, -, hbeyond⟩ := wide_found 200 (by decide)
  obtain ⟨addrs, rest, r, hreq, -, hr, htakes, -⟩ := replies_respect_limits hbuilt
  obtain ⟨addrs', rest', r', hreq', -, hr', -, hrefuses, -⟩ := replies_respect_limits hbuilt'
  rw [readGetUtxos_write _ (by rw [List.length_replicate]; decide)] at hreq
  rw [readGetUtxos_write _ (by rw [List.length_replicate]; decide)] at hreq'
  cases hreq
  cases hreq'
  refine ⟨s, s', payload, payload', hbuilt, ⟨r, hr, htakes 5000 0 hwithin ?_⟩, hbuilt', r', hr',
    hrefuses 4195 hbeyond ?_⟩
  · have hnone : (outsAt {} (List.replicate 1 0)).length = 0 := rfl
    rw [room, hnone]
    omega
  · have hfull : maxReplyProofs ≤ (coinsAt Finset.toList s' (List.replicate 200 0)).length := hmany
    rw [Nat.min_eq_left hfull]
    omega

/-- Two hundred times one address: the reply has a thousand proofs of the large
transaction. -/
theorem replies_exceed_frame : ¬ ∀ (net : Network) (known : Block → Prop) (cfg : Config)
    (o : Offers) (ph : Phase) (s : Chainstate) (enum : Finset OutPoint → List OutPoint)
    (m : Mempool) (req payload : Bytes), Sources net known → cfg.network = net →
    (∀ b, o.Around net b → known b) → Reaches cfg o (Orderly net known cfg o) ph s →
    (∀ l, ∀ x ∈ enum l, x ∈ l) → buildUtxoReply cfg enum s m req = .ok payload →
    payload.length ≤ maxMessage := by
  intro hall
  obtain ⟨s, payload, hs, hbuilt, hlen, hmany, -, -, hbeyond⟩ := wide_found 200 (by decide)
  have hsize := hall .regtest _ _ _ _ s Finset.toList {} _ _ sources_wide rfl (fun _ h => h) hs
    (fun l x hx => Finset.mem_toList.mp hx) hbuilt
  have hle := le_replySize (m := {}) hbeyond
  have hcap : maxReplyProofs = 1000 := rfl
  have hframe : maxMessage = 4194304 := rfl
  have hfull : maxReplyProofs ≤ (coinsAt Finset.toList s (List.replicate 200 0)).length := hmany
  rw [Nat.min_eq_left hfull] at hle
  omega

end QuantCore.Chainstate
