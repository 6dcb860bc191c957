import Mathlib.Data.List.Sort
import QuantCore.Node.Explorer
import QuantCore.Proofs.Codec
import QuantCore.Proofs.Files

/-!
# The explorer's records

A file of an index gives back the records that were written to it, and an index
is taken apart into the records of each token: replaying the log of all tokens
replays each token's, and what is written anew is each token's records. A block
adds to each token's records what it has for that token.
-/

namespace QuantCore

open Codec ByteReader Maps Journal

/-! ## Records can be read back -/

/-- A height that a file can hold. -/
def FitsHeight (h : Int) : Prop := 0 ≤ h ∧ h < 2 ^ 63

theorem int64_ofInt {h : Int} (hh : FitsHeight h) : int64 (UInt64.ofInt h) = h := by
  obtain ⟨h0, hlt⟩ := hh
  have hm : (UInt64.ofInt h).toNat = h.toNat := by
    rw [UInt64.ofInt, UInt64.toNat_ofNat']
    omega
  rw [int64, BitVec.toInt_eq_toNat_of_lt]
  · show ((UInt64.ofInt h).toNat : Int) = h
    omega
  · show 2 * (UInt64.ofInt h).toNat < 2 ^ 64
    omega

theorem decodes_point {e : Hash256 × PoolPoint} (h : FitsHeight e.2.height) :
    Decodes readPoint (writePoint e) e := by
  have hd : Decodes readPoint (writePoint e)
      (e.1, ⟨int64 (UInt64.ofInt e.2.height), e.2.time, e.2.qnt, e.2.tok⟩) := by
    rw [writePoint]
    simp only [List.append_assoc]
    exact (decodes_hash _).bind ((decodes_u64le _).bind ((decodes_u64le _).bind
      ((decodes_u64le _).bind (decodes_u64le _).bind_pure)))
  rwa [int64_ofInt h] at hd

theorem decodes_trade {e : Hash256 × TradePoint} (h : FitsHeight e.2.height) :
    Decodes readTrade (writeTrade e) e := by
  have hsell : ((if e.2.sell then 1 else 0 : UInt8) != 0) = e.2.sell := by
    cases e.2.sell <;> rfl
  have hd : Decodes readTrade (writeTrade e)
      (e.1, ⟨int64 (UInt64.ofInt e.2.height), e.2.time, e.2.txid,
        (if e.2.sell then 1 else 0 : UInt8) != 0, e.2.amountIn, e.2.amountOut, e.2.trader⟩) := by
    rw [writeTrade]
    simp only [List.append_assoc]
    exact (decodes_hash _).bind ((decodes_u64le _).bind ((decodes_u64le _).bind
      ((decodes_hash _).bind ((decodes_u8 _).bind ((decodes_u64le _).bind
        ((decodes_u64le _).bind (decodes_hash _).bind_pure))))))
  rwa [int64_ofInt h, hsell] at hd

theorem writePoint_length (e : Hash256 × PoolPoint) : (writePoint e).length = poolRec := by
  simp only [writePoint, List.length_append, Writer.u64le, Writer.hash, leBytes_length,
    Hash256.bytes_length]
  rfl

theorem writeTrade_length (e : Hash256 × TradePoint) : (writeTrade e).length = tradeRec := by
  simp only [writeTrade, List.length_append, Writer.u8, Writer.u64le, Writer.hash, leBytes_length,
    Hash256.bytes_length, List.length_cons, List.length_nil]
  rfl

/-- A file of records of one size gives its log. -/
theorem entriesOf_flatMap {α : Type} {size : Nat} (hs : 0 < size) {read : ByteReader α}
    {write : α → Bytes} (hlen : ∀ e, (write e).length = size) {log : List α}
    (hd : ∀ e ∈ log, Decodes read (write e) e) : entriesOf size read (log.flatMap write) = log := by
  rw [entriesOf, records_flatMap hs log fun e _ => hlen e, List.filterMap_map]
  have hall : log.filterMap ((fun b => (read b).toOption.map Prod.fst) ∘ write) =
      log.filterMap some := by
    refine List.filterMap_congr fun e he => ?_
    rw [Function.comp_apply, (hd e he).run]
    rfl
  rw [hall, List.filterMap_some]

/-- A message that the file can hold. -/
structure MsgPoint.Kept (m : MsgPoint) : Prop where
  height : FitsHeight m.height
  gift : m.gift.toNat < giftCount
  text : m.text.length ≤ maxMessageText

theorem decodes_msg {m : MsgPoint} (h : m.Kept) : Decodes readMsg (msgBytes m) m := by
  have htext : m.text.length ≤ (UInt64.ofNat maxMessageText).toNat := h.text
  have hd : Decodes readMsg (msgBytes m)
      ⟨int64 (UInt64.ofInt m.height), m.time, m.txid, m.sender, m.recipient, m.gift, m.text⟩ := by
    rw [msgBytes]
    simp only [List.append_assoc]
    exact (decodes_u64le _).bind ((decodes_u64le _).bind ((decodes_hash _).bind
      ((decodes_hash _).bind ((decodes_hash _).bind ((decodes_u8 _).bind
        (decodes_str htext).bind_pure)))))
  rwa [int64_ofInt h.height] at hd

theorem msgBytes_length {m : MsgPoint} (h : m.text.length ≤ maxMessageText) :
    (msgBytes m).length ≤ 1024 := by
  have hsize := size_length_le m.text.length
  simp only [msgBytes, List.length_append, Writer.u8, Writer.u64le, Writer.hash, leBytes_length,
    Hash256.bytes_length, List.length_cons, List.length_nil, Writer.str, Writer.bytes]
  rw [maxMessageText] at h
  omega

theorem messagesFrom_flatMap {ms : List MsgPoint} (hms : ∀ m ∈ ms, m.Kept) {k : Nat}
    (hk : ms.length ≤ k) : messagesFrom k (ms.flatMap writeMsg) = ms := by
  induction ms generalizing k with
  | nil =>
      cases k with
      | zero => rfl
      | succ k =>
          rw [messagesFrom, if_pos]
          exact Nat.zero_lt_succ 3
  | cons m ms ih =>
      rw [List.forall_mem_cons] at hms
      obtain ⟨k, rfl⟩ : ∃ n, k = n + 1 := ⟨k - 1, by rw [List.length_cons] at hk; omega⟩
      have hlen := msgBytes_length hms.1.text
      have h4 : (Writer.u32le (UInt32.ofNat (msgBytes m).length)).length = 4 := leBytes_length _ _
      have hn : ofLeBytes (Writer.u32le (UInt32.ofNat (msgBytes m).length)) =
          (msgBytes m).length := by
        rw [Writer.u32le, ofLeBytes_leBytes, UInt32.toNat_ofNat']
        omega
      have hfile : (m :: ms).flatMap writeMsg =
          Writer.u32le (UInt32.ofNat (msgBytes m).length) ++
            (msgBytes m ++ ms.flatMap writeMsg) := by
        rw [List.flatMap_cons, writeMsg, List.append_assoc]
      have htake : ((m :: ms).flatMap writeMsg).take 4 =
          Writer.u32le (UInt32.ofNat (msgBytes m).length) := by
        rw [hfile, List.take_left' h4]
      have hdrop : ((m :: ms).flatMap writeMsg).drop 4 = msgBytes m ++ ms.flatMap writeMsg := by
        rw [hfile, List.drop_left' h4]
      have hlong : ¬((m :: ms).flatMap writeMsg).length < 4 := by
        rw [hfile, List.length_append, h4]
        omega
      have hfits : ¬((msgBytes m).length > 1024 ∨
          (msgBytes m ++ ms.flatMap writeMsg).length < (msgBytes m).length) := by
        rw [List.length_append]
        omega
      rw [messagesFrom, if_neg hlong]
      simp only [htake, hdrop, hn, if_neg hfits, List.take_left, List.drop_left,
        (decodes_msg hms.1).run]
      rw [if_neg (by have := hms.1.gift; omega),
        ih hms.2 (by rw [List.length_cons] at hk; omega)]

theorem messagesOf_flatMap {ms : List MsgPoint} (hms : ∀ m ∈ ms, m.Kept) :
    messagesOf (ms.flatMap writeMsg) = ms := by
  refine messagesFrom_flatMap hms ?_
  clear hms
  induction ms with
  | nil => exact Nat.le_refl 0
  | cons m ms ih =>
      rw [List.flatMap_cons, List.length_append, writeMsg, List.length_append, Writer.u32le,
        leBytes_length, List.length_cons]
      omega

/-! ## Tokens apart -/

section

variable {ρ : Type}

/-- The records of a token, of a list of records of all. -/
def logAt (log : List (Hash256 × ρ)) (token : Hash256) : List ρ :=
  (log.filter fun e => e.1 = token).map Prod.snd

theorem logAt_append (a b : List (Hash256 × ρ)) (t : Hash256) :
    logAt (a ++ b) t = logAt a t ++ logAt b t := by
  rw [logAt, List.filter_append, List.map_append]
  rfl

theorem logAt_cons (e : Hash256 × ρ) (l : List (Hash256 × ρ)) (t : Hash256) :
    logAt (e :: l) t = if e.1 = t then e.2 :: logAt l t else logAt l t := by
  rw [logAt, List.filter_cons]
  simp only [decide_eq_true_eq]
  split
  · exact List.map_cons
  · rfl

theorem mem_logAt {l : List (Hash256 × ρ)} {t : Hash256} {r : ρ} :
    r ∈ logAt l t ↔ (t, r) ∈ l := by
  rw [logAt, List.mem_map]
  constructor
  · rintro ⟨e, he, rfl⟩
    rw [List.mem_filter, decide_eq_true_eq] at he
    rw [← he.2]
    exact he.1
  · intro h
    exact ⟨(t, r), List.mem_filter.mpr ⟨h, decide_eq_true rfl⟩, rfl⟩

theorem recordsAt_insert (m : UMap Hash256 (List ρ)) (k : Hash256) (v : List ρ) (t : Hash256) :
    recordsAt (m.insert k v) t = if t = k then v else recordsAt m t := by
  rw [recordsAt, lookup_insert_ite]
  split
  · rfl
  · rfl

/-- Putting records of all tokens puts each token's. -/
theorem recordsAt_foldl_putAt (R : Rule ρ Int) (l : List (Hash256 × ρ))
    (m : UMap Hash256 (List ρ)) (t : Hash256) :
    recordsAt (l.foldl (putAt R) m) t = (logAt l t).foldl R.put (recordsAt m t) := by
  induction l generalizing m with
  | nil => rfl
  | cons e l ih =>
      rw [List.foldl_cons, ih, logAt_cons, putAt, recordsAt_insert]
      by_cases he : e.1 = t
      · rw [if_pos he.symm, if_pos he, List.foldl_cons, he]
      · rw [if_neg (Ne.symm he), if_neg he]

theorem recordsAt_replayAt (R : Rule ρ Int) (log : List (Hash256 × ρ)) (t : Hash256) :
    recordsAt (replayAt R log) t = R.replay (logAt log t) :=
  recordsAt_foldl_putAt R log ∅ t

/-- A loop over a map does to each token's records what it says. -/
theorem recordsAt_mapRecords {f : List ρ → List ρ} (hf : f [] = []) (m : UMap Hash256 (List ρ))
    (t : Hash256) : recordsAt (mapRecords f m) t = f (recordsAt m t) := by
  have hfold : mapRecords f m = insertAll m ((pairs m).map fun e => (e.1, f e.2)) := by
    rw [mapRecords, insertAll, List.foldl_map]
  have hkeys : ((pairs m).map fun e => (e.1, f e.2)).map Prod.fst = (pairs m).map Prod.fst := by
    rw [List.map_map]
    rfl
  rw [hfold, recordsAt, ← fn, fn_insertAll]
  cases ht : m.lookup t with
  | none =>
      have hout : t ∉ ((pairs m).map fun e => (e.1, f e.2)).map Prod.fst := by
        rw [hkeys]
        intro h
        obtain ⟨e, he, rfl⟩ := List.mem_map.mp h
        cases ht.symm.trans (mem_pairs.mp he)
      rw [updateAll_of_notMem _ hout, fn, ht, recordsAt, ht]
      exact hf.symm
  | some v =>
      have hin : (t, f v) ∈ (pairs m).map fun e => (e.1, f e.2) :=
        List.mem_map.mpr ⟨(t, v), mem_pairs.mpr ht, rfl⟩
      have hnd : (((pairs m).map fun e => (e.1, f e.2)).map Prod.fst).Nodup := by
        rw [hkeys]
        exact pairs_nodup m
      rw [updateAll_of_mem _ hnd hin, recordsAt, ht]
      rfl

theorem logAt_keyed (k : Hash256) (v : List ρ) (t : Hash256) :
    logAt (v.map fun r => (k, r)) t = if k = t then v else [] := by
  induction v with
  | nil => exact (ite_self _).symm
  | cons r v ih =>
      rw [List.map_cons, logAt_cons, ih]
      split
      · rfl
      · rfl

/-- One record at most for each of distinct keys. -/
theorem logAt_filterMap {l : List Hash256} (hnd : l.Nodup) (f : Hash256 → Option ρ)
    (t : Hash256) :
    logAt (l.filterMap fun k => (f k).map fun r => (k, r)) t =
      if t ∈ l then (f t).toList else [] := by
  induction l with
  | nil => rfl
  | cons k l ih =>
      rw [List.nodup_cons] at hnd
      have hk := ih hnd.2
      rw [List.filterMap_cons]
      by_cases ht : k = t
      · subst ht
        rw [if_neg hnd.1] at hk
        rw [if_pos List.mem_cons_self]
        cases hf : f k with
        | none => exact hk
        | some r =>
            show logAt ((k, r) :: _) k = [r]
            rw [logAt_cons, if_pos rfl, hk]
      · have hmem : t ∈ k :: l ↔ t ∈ l := by
          rw [List.mem_cons, or_iff_right (Ne.symm ht)]
        simp only [hmem]
        cases hf : f k with
        | none => exact hk
        | some r =>
            show logAt ((k, r) :: _) t = _
            rw [logAt_cons, if_neg ht, hk]

theorem logAt_flatMap_of_notMem {l : List (Hash256 × List ρ)} {t : Hash256}
    (h : t ∉ l.map Prod.fst) : logAt (l.flatMap fun e => e.2.map fun r => (e.1, r)) t = [] := by
  induction l with
  | nil => rfl
  | cons e l ih =>
      rw [List.map_cons, List.mem_cons, not_or] at h
      rw [List.flatMap_cons, logAt_append, logAt_keyed, if_neg (Ne.symm h.1), ih h.2,
        List.append_nil]

/-- Of lists under distinct keys, only a token's own has its records. -/
theorem logAt_flatMap_of_mem {l : List (Hash256 × List ρ)} (hnd : (l.map Prod.fst).Nodup)
    {t : Hash256} {v : List ρ} (h : (t, v) ∈ l) :
    logAt (l.flatMap fun e => e.2.map fun r => (e.1, r)) t = v := by
  induction l with
  | nil => cases h
  | cons e l ih =>
      rw [List.map_cons, List.nodup_cons] at hnd
      rw [List.flatMap_cons, logAt_append, logAt_keyed]
      rcases List.mem_cons.mp h with rfl | h
      · rw [if_pos rfl, logAt_flatMap_of_notMem hnd.1, List.append_nil]
      · have hne : e.1 ≠ t := fun he => hnd.1 (List.mem_map.mpr ⟨(t, v), h, he.symm⟩)
        rw [if_neg hne, List.nil_append, ih hnd.2 h]

theorem logAt_allRecords (m : UMap Hash256 (List ρ)) (t : Hash256) :
    logAt (allRecords m) t = recordsAt m t := by
  have hperm := List.perm_insertionSort
    (fun a b : Hash256 × List ρ => a.1.toNat ≤ b.1.toNat) (pairs m)
  have hnd := (hperm.map Prod.fst).nodup_iff.mpr (pairs_nodup m)
  rw [allRecords, recordsAt]
  cases ht : m.lookup t with
  | none =>
      refine logAt_flatMap_of_notMem fun h => ?_
      obtain ⟨e, he, rfl⟩ := List.mem_map.mp ((hperm.map Prod.fst).mem_iff.mp h)
      cases ht.symm.trans (mem_pairs.mp he)
  | some v => exact logAt_flatMap_of_mem hnd (hperm.mem_iff.mpr (mem_pairs.mpr ht))

theorem mem_allRecords {m : UMap Hash256 (List ρ)} {e : Hash256 × ρ} (h : e ∈ allRecords m) :
    e.2 ∈ recordsAt m e.1 := by
  rw [← logAt_allRecords]
  exact mem_logAt.mpr h

end

/-! ## What the chain has -/

/-- A chain's blocks from genesis, each with the pools after it. -/
abbrev ChainBlocks := List (Block × (Hash256 → Option Pool))

/-- The records of a chain's blocks, in the order of the chain. -/
def chainRecords {α : Type} (f : Block × (Hash256 → Option Pool) → Int → List α)
    (chain : ChainBlocks) : List α :=
  chain.zipIdx.flatMap fun e => f e.1 e.2

theorem chainRecords_concat {α : Type} (f : Block × (Hash256 → Option Pool) → Int → List α)
    (c : ChainBlocks) (x : Block × (Hash256 → Option Pool)) :
    chainRecords f (c ++ [x]) = chainRecords f c ++ f x c.length := by
  rw [chainRecords, List.zipIdx_append, List.flatMap_append, Nat.zero_add]
  show _ ++ (f x c.length ++ []) = _
  rw [List.append_nil]
  rfl

/-- The records of a chain are of heights below its length. -/
theorem chainRecords_height {α : Type} {f : Block × (Hash256 → Option Pool) → Int → List α}
    {height : α → Int} (hf : ∀ x h, ∀ r ∈ f x h, height r = h) (c : ChainBlocks) :
    ∀ r ∈ chainRecords f c, height r < c.length := by
  intro r hr
  obtain ⟨⟨x, i⟩, hx, hr⟩ := List.mem_flatMap.mp hr
  rw [hf x i r hr]
  have hi := List.snd_lt_of_mem_zipIdx hx
  exact_mod_cast hi

def chainPoints (chain : ChainBlocks) : List (Hash256 × PoolPoint) :=
  chainRecords (fun x h => Explorer.blockPoints x.1 h x.2) chain

theorem chainPoints_concat (c : ChainBlocks) (b : Block) (pool : Hash256 → Option Pool) :
    chainPoints (c ++ [(b, pool)]) = chainPoints c ++ Explorer.blockPoints b c.length pool :=
  chainRecords_concat _ c (b, pool)

section

variable [Crypto]

def chainTrades (chain : ChainBlocks) : List (Hash256 × TradePoint) :=
  chainRecords (fun x h => Explorer.blockTrades x.1 h) chain

def chainMsgs (chain : ChainBlocks) : List MsgPoint :=
  chainRecords (fun x h => Explorer.blockMsgs x.1 h) chain

theorem chainTrades_concat (c : ChainBlocks) (b : Block) (pool : Hash256 → Option Pool) :
    chainTrades (c ++ [(b, pool)]) = chainTrades c ++ Explorer.blockTrades b c.length :=
  chainRecords_concat _ c (b, pool)

theorem chainMsgs_concat (c : ChainBlocks) (b : Block) (pool : Hash256 → Option Pool) :
    chainMsgs (c ++ [(b, pool)]) = chainMsgs c ++ Explorer.blockMsgs b c.length :=
  chainRecords_concat _ c (b, pool)

omit [Crypto] in
/-- A block adds at most one point a pool. -/
theorem logAt_blockPoints (b : Block) (h : Int) (pool : Hash256 → Option Pool) (t : Hash256) :
    logAt (Explorer.blockPoints b h pool) t = [] ∨
      ∃ r, r.height = h ∧ logAt (Explorer.blockPoints b h pool) t = [r] := by
  have hnd : (Explorer.touched b).Nodup :=
    (List.perm_insertionSort _ _).nodup_iff.mpr (List.nodup_dedup _)
  have hpoints : Explorer.blockPoints b h pool =
      (Explorer.touched b).filterMap fun k =>
        ((pool k).map fun pl => (⟨h, b.header.time, pl.qnt, pl.tok⟩ : PoolPoint)).map
          fun r => (k, r) := by
    simp only [Option.map_map]
    rfl
  rw [hpoints, logAt_filterMap hnd]
  split
  · cases pool t with
    | none => exact .inl rfl
    | some pl => exact .inr ⟨_, rfl, rfl⟩
  · exact .inl rfl

omit [Crypto] in
theorem blockPoints_height {b : Block} {h : Int} {pool : Hash256 → Option Pool}
    {e : Hash256 × PoolPoint} (he : e ∈ Explorer.blockPoints b h pool) : e.2.height = h := by
  rw [Explorer.blockPoints, List.mem_filterMap] at he
  obtain ⟨t, -, ht⟩ := he
  obtain ⟨pl, -, rfl⟩ := Option.map_eq_some_iff.mp ht
  rfl

theorem blockTrades_height {b : Block} {h : Int} {e : Hash256 × TradePoint}
    (he : e ∈ Explorer.blockTrades b h) : e.2.height = h := by
  rw [Explorer.blockTrades, List.mem_flatMap] at he
  obtain ⟨tx, -, he⟩ := he
  obtain ⟨op, -, hop⟩ := List.mem_filterMap.mp he
  cases op with
  | swap s =>
      cases hop
      rfl
  | createToken _ => cases hop
  | poolCreate _ => cases hop
  | addLiquidity _ => cases hop
  | removeLiquidity _ => cases hop
  | message _ => cases hop

/-- A message of a block is one of its transactions' ops. -/
theorem of_mem_blockMsgs {b : Block} {h : Int} {m : MsgPoint} (hm : m ∈ Explorer.blockMsgs b h) :
    m.height = h ∧ ∃ tx ∈ b.txs, ∃ o, TxOp.message o ∈ tx.ops ∧ o.gift = m.gift ∧
      o.text = m.text := by
  rw [Explorer.blockMsgs, List.mem_flatMap] at hm
  obtain ⟨tx, htx, hm⟩ := hm
  obtain ⟨op, hop, hm⟩ := List.mem_filterMap.mp hm
  cases op with
  | message o =>
      cases hm
      exact ⟨rfl, tx, htx, o, hop, rfl, rfl⟩
  | createToken _ => cases hm
  | poolCreate _ => cases hm
  | addLiquidity _ => cases hm
  | removeLiquidity _ => cases hm
  | swap _ => cases hm

/-! ## What a block does to the indexes -/

namespace Explorer

omit [Crypto] in
theorem poolHistConnect_eq (e : Explorer) (b : Block) (h : Int) (pool : Hash256 → Option Pool) :
    e.poolHistConnect b h pool =
      { e with
        poolHist := (blockPoints b h pool).foldl (putAt poolRule) e.poolHist
        poolFile := e.poolFile ++ (blockPoints b h pool).flatMap writePoint } := by
  rw [poolHistConnect]
  generalize blockPoints b h pool = l
  induction l generalizing e with
  | nil =>
      rw [List.foldl_nil, List.foldl_nil, List.flatMap_nil, List.append_nil]
  | cons pt l ih => rw [List.foldl_cons, ih, List.foldl_cons, List.flatMap_cons, List.append_assoc]

omit [Crypto] in
/-- The loop of `trades_connect`, where nothing is at the height yet. -/
theorem foldl_pushTrade {h : Int} (e : Explorer) (seen : List Hash256)
    (l : List (Hash256 × TradePoint))
    (hlow : ∀ t, t ∉ seen → ∀ x ∈ recordsAt e.trades t, x.height < h) :
    ∃ m, (l.foldl (pushTrade h) (e, seen)).1 =
        { e with trades := m, tradesFile := e.tradesFile ++ l.flatMap writeTrade } ∧
      ∀ t, recordsAt m t = recordsAt e.trades t ++ logAt l t := by
  induction l generalizing e seen with
  | nil =>
      refine ⟨e.trades, ?_, fun t => (List.append_nil _).symm⟩
      rw [List.flatMap_nil, List.append_nil]
      rfl
  | cons x l ih =>
      have hkeep : (if x.1 ∈ seen then recordsAt e.trades x.1
          else (recordsAt e.trades x.1).rdropWhile fun y => y.height ≥ h) =
          recordsAt e.trades x.1 := by
        split
        · rfl
        · next hx =>
            rw [List.rdropWhile_eq_self_iff]
            intro hne hlast
            rw [decide_eq_true_eq] at hlast
            exact hlast.not_gt (hlow x.1 hx _ (List.getLast_mem hne))
      have hpush : pushTrade h (e, seen) x =
          ({ e with
              trades := e.trades.insert x.1 (recordsAt e.trades x.1 ++ [x.2])
              tradesFile := e.tradesFile ++ writeTrade x }, x.1 :: seen) := by
        rw [pushTrade]
        simp only [hkeep]
      have hlow' : ∀ t, t ∉ x.1 :: seen →
          ∀ y ∈ recordsAt (e.trades.insert x.1 (recordsAt e.trades x.1 ++ [x.2])) t,
            y.height < h := by
        intro t ht y hy
        rw [List.mem_cons, not_or] at ht
        rw [recordsAt_insert, if_neg ht.1] at hy
        exact hlow t ht.2 y hy
      obtain ⟨m, hm, hrec⟩ := ih { e with
        trades := e.trades.insert x.1 (recordsAt e.trades x.1 ++ [x.2])
        tradesFile := e.tradesFile ++ writeTrade x } (x.1 :: seen) hlow'
      refine ⟨m, ?_, fun t => ?_⟩
      · rw [List.foldl_cons, hpush, hm, List.flatMap_cons, List.append_assoc]
      · rw [hrec t, recordsAt_insert, logAt_cons]
        by_cases ht : t = x.1
        · rw [if_pos ht, if_pos ht.symm, ht, ← List.append_cons]
        · rw [if_neg ht, if_neg (Ne.symm ht)]

end Explorer

end

end QuantCore
