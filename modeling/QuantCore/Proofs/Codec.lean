import QuantCore.Chain.Storage
import QuantCore.Proofs.Serialize

/-!
# The file formats can be read back

Headers, transactions, blocks, undo records and snapshots: each reader undoes
its writer. The readers bound what they accept, so a value has to be within the
limits of the decoder; `Limits` says so for a transaction and for a block, and
everything that came in over the wire is within them.

What is kept in undo records and snapshots is read with counts that have no
limit but the 64 bits of the count itself.
-/

namespace QuantCore

open Codec ByteReader

/-! ## Lists -/

theorem toUInt32_toUInt64 (v : UInt32) : v.toUInt64.toUInt32 = v := by
  simp

theorem decodes_readList {α : Type} {max : Nat} {r : ByteReader α} {w : α → Bytes}
    {xs : List α} (hmax : max < 2 ^ 64) (hlen : xs.length ≤ max)
    (h : ∀ x ∈ xs, Decodes r (w x) x) :
    Decodes (readList max r) (Writer.size xs.length ++ xs.flatMap w) xs := by
  have hle : xs.length ≤ (UInt64.ofNat max).toNat := by
    rw [UInt64.toNat_ofNat', Nat.mod_eq_of_lt hmax]
    exact hlen
  refine (decodes_size hle).bind ?_
  rw [size_toNat hle]
  exact decodes_readMany h

theorem decodes_readCounted {α : Type} {r : ByteReader α} {w : α → Bytes} {xs : List α}
    (hlen : xs.length < 2 ^ 64) (h : ∀ x ∈ xs, Decodes r (w x) x) :
    Decodes (readCounted r) (Writer.size xs.length ++ xs.flatMap w) xs := by
  have hn : (UInt64.ofNat xs.length).toNat = xs.length := by
    rw [UInt64.toNat_ofNat', Nat.mod_eq_of_lt hlen]
  refine (decodes_varint _).bind ?_
  rw [hn]
  exact decodes_readMany h

/-! ## Headers -/

theorem decodes_header (h : BlockHeader) : Decodes BlockHeader.read h.write h := by
  rw [BlockHeader.write]
  simp only [List.append_assoc]
  exact (decodes_u32le _).bind ((decodes_hash _).bind ((decodes_hash _).bind
    ((decodes_hash _).bind ((decodes_hash _).bind ((decodes_u64le _).bind
      ((decodes_u32le _).bind (decodes_u64le _).bind_pure))))))

theorem header_write_length (h : BlockHeader) : h.write.length = BlockHeader.size := by
  simp only [BlockHeader.write, List.length_append, Writer.u32le, Writer.u64le, Writer.hash,
    leBytes_length, Hash256.bytes_length]
  rfl

/-! ## Transactions -/

theorem decodes_outPoint (o : OutPoint) : Decodes readOutPoint (writeOutPoint o) o := by
  have hn : o.n.toUInt64.toNat ≤ u32Max.toNat := by
    rw [UInt32.toNat_toUInt64]
    have := o.n.toNat_lt
    show o.n.toNat ≤ 4294967295
    omega
  have h : Decodes readOutPoint (writeOutPoint o) ⟨o.txid, o.n.toUInt64.toUInt32⟩ :=
    (decodes_hash o.txid).bind (decodes_varintMax hn).bind_pure
  rwa [toUInt32_toUInt64] at h

/-- The flag and id of an asset, as they stand in an output. -/
theorem decodes_asset {r : ByteReader Hash256} (a : Hash256)
    (h0 : r = readAsset ∨ r = readCoinAsset) :
    Decodes r (if a.isZero then Writer.u8 0 else Writer.u8 1 ++ Writer.hash a) a := by
  split
  · next hz =>
      have ha : qntAsset = a := by
        rw [Hash256.isZero, beq_iff_eq] at hz
        rw [hz]
        rfl
      have hp : ∀ f : UInt8 → ByteReader Hash256, f 0 = pure qntAsset →
          Decodes (u8 >>= f) (Writer.u8 0) a := by
        intro f hf
        have h := (decodes_u8 0).bind (f := f) (y := a) (c := []) (by
          rw [hf, ha]
          exact decodes_pure a)
        rwa [List.append_nil] at h
      rcases h0 with rfl | rfl
      · exact hp _ rfl
      · exact hp _ rfl
  · next hz =>
      rcases h0 with rfl | rfl
      · refine (decodes_u8 1).bind ?_
        have h := (decodes_hash a).bind (c := []) (y := a)
          (f := fun a => if a.isZero then throw "non-canonical asset" else pure a) (by
            rw [if_neg hz]
            exact decodes_pure a)
        rwa [List.append_nil] at h
      · exact (decodes_u8 1).bind (decodes_hash a)

theorem decodes_txOut (o : TxOut) : Decodes readTxOut (writeTxOut o) o := by
  rw [writeTxOut]
  simp only [List.append_assoc]
  exact (decodes_varint _).bind ((decodes_asset o.asset (.inl rfl)).bind
    (decodes_hash _).bind_pure)

/-- The texts of an op are as long as the decoder lets them be. -/
def TxOp.Limits : TxOp → Prop
  | .createToken o =>
      o.ticker.length ≤ maxTicker ∧ o.name.length ≤ maxTokenName ∧
        o.uri.length ≤ maxTokenUri
  | .message o => o.text.length ≤ maxMessageText
  | _ => True

instance : (o : TxOp) → Decidable o.Limits
  | .createToken o => inferInstanceAs (Decidable (o.ticker.length ≤ maxTicker ∧
      o.name.length ≤ maxTokenName ∧ o.uri.length ≤ maxTokenUri))
  | .message o => inferInstanceAs (Decidable (o.text.length ≤ maxMessageText))
  | .poolCreate _ | .addLiquidity _ | .removeLiquidity _ | .swap _ => isTrue trivial

theorem decodes_sell (b : Bool) : Decodes readSell (Writer.u8 (if b then 1 else 0)) b := by
  cases b <;> exact fun _ => rfl

theorem decodes_op {o : TxOp} (h : o.Limits) : Decodes readOp (writeOp o) o := by
  have hstr : ∀ {m : Nat} {s : Bytes}, m ≤ 280 → s.length ≤ m →
      Decodes (ByteReader.str (UInt64.ofNat m)) (Writer.str s) s := by
    intro m s hm hs
    apply decodes_str
    rw [UInt64.toNat_ofNat', Nat.mod_eq_of_lt (by omega)]
    exact hs
  cases o with
  | createToken o =>
      obtain ⟨ht, hn, hu⟩ := h
      rw [writeOp]
      simp only [List.append_assoc]
      exact (decodes_u8 1).bind ((hstr (by decide) ht).bind ((hstr (by decide) hn).bind
        ((decodes_u8 _).bind ((decodes_varint _).bind (hstr (by decide) hu).bind_pure))))
  | poolCreate o =>
      rw [writeOp]
      simp only [List.append_assoc]
      exact (decodes_u8 2).bind ((decodes_hash _).bind ((decodes_varint _).bind
        ((decodes_varint _).bind (decodes_varint _).bind_pure)))
  | addLiquidity o =>
      rw [writeOp]
      simp only [List.append_assoc]
      exact (decodes_u8 3).bind ((decodes_hash _).bind ((decodes_varint _).bind
        ((decodes_varint _).bind (decodes_varint _).bind_pure)))
  | removeLiquidity o =>
      rw [writeOp]
      simp only [List.append_assoc]
      exact (decodes_u8 4).bind ((decodes_hash _).bind ((decodes_varint _).bind
        ((decodes_varint _).bind (decodes_varint _).bind_pure)))
  | swap o =>
      rw [writeOp]
      simp only [List.append_assoc]
      exact (decodes_u8 5).bind ((decodes_hash _).bind ((decodes_sell _).bind
        ((decodes_varint _).bind (decodes_varint _).bind_pure)))
  | message o =>
      rw [writeOp]
      simp only [List.append_assoc]
      exact (decodes_u8 6).bind ((decodes_hash _).bind ((decodes_hash _).bind
        ((decodes_u8 _).bind (hstr (by decide) h).bind_pure)))

/-- A signature section the decoder lets through. -/
def Witness.Limits : Witness → Prop
  | .ref input => input.toNat ≤ maxTxInputs
  | .falcon pk sig => pk.length = falconPkBytes ∧ sig.length ≤ falconSigMax

instance : (w : Witness) → Decidable w.Limits
  | .ref input => inferInstanceAs (Decidable (input.toNat ≤ maxTxInputs))
  | .falcon pk sig =>
      inferInstanceAs (Decidable (pk.length = falconPkBytes ∧ sig.length ≤ falconSigMax))

theorem decodes_witness {w : Witness} (h : w.Limits) :
    Decodes readWitness (writeWitness w) w := by
  cases w with
  | ref input =>
      have hle : input.toUInt64.toNat ≤ (UInt64.ofNat maxTxInputs).toNat := by
        rw [UInt32.toNat_toUInt64]
        exact h
      have hd : Decodes readWitness (writeWitness (.ref input))
          (.ref input.toUInt64.toUInt32) :=
        (decodes_u8 0).bind (decodes_varintMax hle).bind_pure
      rwa [toUInt32_toUInt64] at hd
  | falcon pk sig =>
      obtain ⟨hpk, hsig⟩ := h
      rw [writeWitness]
      simp only [List.append_assoc]
      exact (decodes_u8 1).bind ((decodes_raw hpk).bind (decodes_bytes hsig).bind_pure)

/-- What the decoder lets through of a transaction. -/
structure Transaction.Limits (t : Transaction) : Prop where
  ins : t.ins.length ≤ maxTxInputs
  outs : t.outs.length ≤ maxTxOutputs
  ops : t.ops.length ≤ maxTxOps
  op : ∀ o ∈ t.ops, o.Limits
  extra : t.extra.length ≤ maxCoinbaseExtra
  witness : t.witness.length ≤ maxTxInputs
  signature : ∀ w ∈ t.witness, w.Limits

instance (t : Transaction) : Decidable t.Limits :=
  decidable_of_iff (t.ins.length ≤ maxTxInputs ∧ t.outs.length ≤ maxTxOutputs ∧
      t.ops.length ≤ maxTxOps ∧ (∀ o ∈ t.ops, o.Limits) ∧ t.extra.length ≤ maxCoinbaseExtra ∧
      t.witness.length ≤ maxTxInputs ∧ ∀ w ∈ t.witness, w.Limits)
    ⟨fun ⟨hins, houts, hops, hop, hextra, hwitness, hsig⟩ =>
        ⟨hins, houts, hops, hop, hextra, hwitness, hsig⟩,
      fun h => ⟨h.ins, h.outs, h.ops, h.op, h.extra, h.witness, h.signature⟩⟩

theorem decodes_txCore {t : Transaction} (h : t.Limits) :
    Decodes Transaction.readCore t.writeCore t.core := by
  have hv : t.version.toUInt64.toNat ≤ u32Max.toNat := by
    rw [UInt32.toNat_toUInt64]
    have := t.version.toNat_lt
    show t.version.toNat ≤ 4294967295
    omega
  have hins := decodes_readList (r := TxIn.mk <$> readOutPoint) (by decide) h.ins
    fun i _ => (decodes_outPoint i.prev).bind_pure (g := TxIn.mk)
  have houts := decodes_readList (r := readTxOut) (by decide) h.outs
    fun o _ => decodes_txOut o
  have hops := decodes_readList (by decide) h.ops fun o ho => decodes_op (h.op o ho)
  have hextra : Decodes (ByteReader.bytes (UInt64.ofNat maxCoinbaseExtra))
      (Writer.bytes t.extra) t.extra := decodes_bytes h.extra
  have hw : t.writeCore = Writer.varint t.version.toUInt64 ++
      ((Writer.size t.ins.length ++ t.ins.flatMap fun i => writeOutPoint i.prev) ++
        ((Writer.size t.outs.length ++ t.outs.flatMap writeTxOut) ++
          ((Writer.size t.ops.length ++ t.ops.flatMap writeOp) ++
            (Writer.varint t.lockHeight ++ Writer.bytes t.extra)))) := by
    simp only [Transaction.writeCore, List.append_assoc]
  have hd : Decodes Transaction.readCore t.writeCore
      { t.core with version := t.version.toUInt64.toUInt32 } := by
    rw [hw]
    exact (decodes_varintMax hv).bind (hins.bind (houts.bind (hops.bind
      ((decodes_varint _).bind hextra.bind_pure))))
  rwa [toUInt32_toUInt64] at hd

theorem decodes_txWitness {t : Transaction} {ws : List Witness}
    (hlen : ws.length ≤ maxTxInputs) (h : ∀ w ∈ ws, w.Limits) :
    Decodes t.readWitnesses (Writer.size ws.length ++ ws.flatMap writeWitness)
      { t with witness := ws } :=
  (decodes_readList (r := readWitness) (w := writeWitness) (by decide) hlen
    fun w hw => decodes_witness (h w hw)).bind_pure

/-! ## Blocks -/

/-- What the decoder lets through of a block. -/
structure Block.Limits (b : Block) : Prop where
  txs : b.txs.length ≤ maxBlockSize / 40
  tx : ∀ t ∈ b.txs, t.Limits

instance (b : Block) : Decidable b.Limits :=
  decidable_of_iff (b.txs.length ≤ maxBlockSize / 40 ∧ ∀ t ∈ b.txs, t.Limits)
    ⟨fun ⟨htxs, htx⟩ => ⟨htxs, htx⟩, fun h => ⟨h.txs, h.tx⟩⟩

theorem writeCore_core (t : Transaction) : t.core.writeCore = t.writeCore := rfl

theorem coreBytes_core (b : Block) : b.core.coreBytes = b.coreBytes := by
  rw [Block.coreBytes, Block.coreBytes, Block.core, List.length_map, List.flatMap_map]
  rfl

theorem decodes_blockCore {b : Block} (h : b.Limits) :
    Decodes Block.readCore b.coreBytes b.core := by
  have htxs : Decodes (readList (maxBlockSize / 40) Transaction.readCore)
      (Writer.size (b.txs.map Transaction.core).length ++
        (b.txs.map Transaction.core).flatMap Transaction.writeCore)
      (b.txs.map Transaction.core) := by
    refine decodes_readList (by decide) (by rw [List.length_map]; exact h.txs) ?_
    intro t ht
    obtain ⟨u, hu, rfl⟩ := List.mem_map.mp ht
    exact decodes_txCore (t := u) (h.tx u hu)
  rw [← coreBytes_core, Block.coreBytes]
  simp only [List.append_assoc]
  exact (decodes_header b.header).bind htxs.bind_pure

/-- Give the transactions of a block the signatures of a list. -/
def Block.withWitness (b : Block) (ws : List (List Witness)) : Block :=
  { b with txs := List.zipWith (fun t w => { t with witness := w }) b.txs ws }

theorem decodes_witnessesOf {ts : List Transaction} {ws : List (List Witness)}
    (hlen : ts.length = ws.length) (hws : ∀ w ∈ ws, w.length ≤ maxTxInputs)
    (h : ∀ w ∈ ws, ∀ x ∈ w, x.Limits) :
    Decodes (Block.readWitnessesOf ts)
      (ws.flatMap fun w => Writer.size w.length ++ w.flatMap writeWitness)
      (List.zipWith (fun t w => { t with witness := w }) ts ws) := by
  induction ts generalizing ws with
  | nil =>
      cases ws with
      | nil => exact decodes_pure []
      | cons w ws => cases hlen
  | cons t ts ih =>
      cases ws with
      | nil => cases hlen
      | cons w ws =>
          have hw := decodes_txWitness (t := t) (hws w (List.mem_cons_self ..))
            (h w (List.mem_cons_self ..))
          have hrest := ih (Nat.succ.inj hlen)
            (fun x hx => hws x (List.mem_cons_of_mem w hx))
            (fun x hx => h x (List.mem_cons_of_mem w hx))
          rw [Block.readWitnessesOf, List.flatMap_cons, List.zipWith_cons_cons]
          exact hw.bind hrest.bind_pure

theorem decodes_blockWitness {b full : Block} (hl : full.Limits)
    (hlen : b.txs.length = full.txs.length) :
    Decodes b.readWitness full.witnessBytes
      (b.withWitness (full.txs.map Transaction.witness)) := by
  have hw : full.witnessBytes = (full.txs.map Transaction.witness).flatMap fun w =>
      Writer.size w.length ++ w.flatMap writeWitness := by
    rw [Block.witnessBytes, List.flatMap_map]
    rfl
  rw [hw]
  refine (decodes_witnessesOf (by rw [List.length_map]; exact hlen) ?_ ?_).bind_pure
  · intro w hw
    obtain ⟨t, ht, rfl⟩ := List.mem_map.mp hw
    exact (hl.tx t ht).witness
  · intro w hw
    obtain ⟨t, ht, rfl⟩ := List.mem_map.mp hw
    exact (hl.tx t ht).signature

/-- With its own signatures a block is itself again. -/
theorem core_withWitness (b : Block) :
    b.core.withWitness (b.txs.map Transaction.witness) = b := by
  have htxs : ∀ ts : List Transaction,
      List.zipWith (fun t w => { t with witness := w }) (ts.map Transaction.core)
        (ts.map Transaction.witness) = ts := by
    intro ts
    induction ts with
    | nil => rfl
    | cons t ts ih =>
        rw [List.map_cons, List.map_cons, List.zipWith_cons_cons, ih]
        rfl
  rw [Block.withWitness, Block.core]
  rw [htxs]

/-! ## Coins, tokens and pools -/

theorem decodes_coin (c : Coin) : Decodes readCoin (writeCoin c) c := by
  rw [writeCoin]
  simp only [List.append_assoc]
  have hflag := (decodes_u8 (if c.coinbase then 1 else 0)).bind_pure
    (g := fun f => Coin.mk c.out c.height (f != 0))
  have hc : Coin.mk c.out c.height ((if c.coinbase then (1 : UInt8) else 0) != 0) = c := by
    obtain ⟨out, height, coinbase⟩ := c
    cases coinbase <;> rfl
  rw [hc] at hflag
  exact (decodes_varint _).bind ((decodes_asset c.out.asset (.inr rfl)).bind
    ((decodes_hash _).bind ((decodes_varint _).bind hflag)))

theorem decodes_storedCoin (e : OutPoint × Coin) :
    Decodes readStoredCoin (writeStoredCoin e) e := by
  rw [writeStoredCoin]
  simp only [List.append_assoc]
  have hd : Decodes readStoredCoin
      (Writer.hash e.1.txid ++ (Writer.varint e.1.n.toUInt64 ++ writeCoin e.2))
      (⟨e.1.txid, e.1.n.toUInt64.toUInt32⟩, e.2) :=
    (decodes_hash _).bind ((decodes_varint _).bind (decodes_coin e.2).bind_pure)
  rwa [toUInt32_toUInt64] at hd

/-- The texts of a token are as long as the reader lets them be. -/
def TokenInfo.Limits (t : TokenInfo) : Prop :=
  t.ticker.length ≤ maxTicker ∧ t.name.length ≤ maxTokenName ∧ t.uri.length ≤ maxTokenUri

theorem decodes_token {t : TokenInfo} (h : t.Limits) :
    Decodes readToken (writeToken t) t := by
  obtain ⟨ht, hn, hu⟩ := h
  rw [writeToken]
  simp only [List.append_assoc]
  exact (decodes_hash _).bind ((decodes_str ht).bind ((decodes_str hn).bind
    ((decodes_str hu).bind ((decodes_u8 _).bind ((decodes_varint _).bind
      ((decodes_hash _).bind (decodes_varint _).bind_pure))))))

theorem decodes_pool (p : Pool) : Decodes readPool (writePool p) p := by
  rw [writePool]
  simp only [List.append_assoc]
  exact (decodes_hash _).bind ((decodes_varint _).bind ((decodes_varint _).bind
    (decodes_varint _).bind_pure))

/-! ## Undo records -/

theorem decodes_poolBefore (e : Hash256 × Option Pool) :
    Decodes readPoolBefore (writePoolBefore e) e := by
  obtain ⟨t, p⟩ := e
  refine (decodes_hash t).bind ?_
  cases p with
  | none =>
      have h : Decodes readPoolOption (Writer.u8 0) none := fun _ => rfl
      exact h.bind_pure
  | some p =>
      have h : Decodes readPoolOption (Writer.u8 1 ++ writePool p) (some p) :=
        (decodes_u8 1).bind ((decodes_pool p).bind_pure (g := some))
      exact h.bind_pure

/-- The counts of an undo record fit in 64 bits. -/
structure Undo.Limits (u : Undo) : Prop where
  spent : u.spent.length < 2 ^ 64
  poolsBefore : u.poolsBefore.length < 2 ^ 64
  tokensCreated : u.tokensCreated.length < 2 ^ 64

theorem decodes_undo {u : Undo} (h : u.Limits) : Decodes Undo.read u.write u := by
  have hs := decodes_readCounted h.spent fun e _ => decodes_storedCoin e
  have hp := decodes_readCounted h.poolsBefore fun e _ => decodes_poolBefore e
  have ht := decodes_readCounted h.tokensCreated fun i _ => decodes_hash i
  have hw : u.write = (Writer.size u.spent.length ++ u.spent.flatMap writeStoredCoin) ++
      ((Writer.size u.poolsBefore.length ++ u.poolsBefore.flatMap writePoolBefore) ++
        (Writer.size u.tokensCreated.length ++ u.tokensCreated.flatMap Writer.hash)) := by
    simp only [Undo.write, List.append_assoc]
  rw [hw]
  exact hs.bind (hp.bind ht.bind_pure)

/-! ## Snapshots -/

structure Snapshot.Limits (x : Snapshot) : Prop where
  coins : x.coins.length < 2 ^ 64
  tokens : x.tokens.length < 2 ^ 64
  token : ∀ t ∈ x.tokens, t.Limits
  pools : x.pools.length < 2 ^ 64

theorem decodes_magic : Decodes Snapshot.readMagic (Writer.u32le stateMagic) () := by
  have h := (decodes_u32le stateMagic).bind (c := []) (y := ())
    (f := fun m => if m ≠ stateMagic then (throw "magic" : ByteReader Unit) else pure ())
    (decodes_pure ())
  rwa [List.append_nil] at h

theorem decodes_snapshot {x : Snapshot} (h : x.Limits) :
    Decodes Snapshot.read x.write x := by
  have hc := decodes_readCounted h.coins fun e _ => decodes_storedCoin e
  have ht := decodes_readCounted h.tokens fun t ht => decodes_token (h.token t ht)
  have hp := decodes_readCounted h.pools fun p _ => decodes_pool p
  have hw : x.write = Writer.u32le stateMagic ++ (Writer.hash x.block ++
      (Writer.varint x.height ++
        ((Writer.size x.coins.length ++ x.coins.flatMap writeStoredCoin) ++
          ((Writer.size x.tokens.length ++ x.tokens.flatMap writeToken) ++
            (Writer.size x.pools.length ++ x.pools.flatMap writePool))))) := by
    simp only [Snapshot.write, List.append_assoc]
  rw [hw]
  exact decodes_magic.bind ((decodes_hash _).bind ((decodes_varint _).bind
    (hc.bind (ht.bind hp.bind_pure))))

end QuantCore
