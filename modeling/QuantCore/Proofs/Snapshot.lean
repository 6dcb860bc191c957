import Mathlib.Data.List.Sort
import QuantCore.Proofs.Accounts
import QuantCore.Proofs.Frame
import QuantCore.Proofs.Keys

/-!
# Snapshots say all there is to say

A snapshot lists the maps sorted by key. Sorting takes the order of iteration
out, so the bytes are a function of the tip, its height and the three maps as
partial functions; and reading them back into cleared maps gives the same three
functions, with the address index and the supply that belong to them.
-/

namespace QuantCore

open Codec Maps

/-! ## Sorted lists -/

/-- A list sorted by a key its entries are told apart by is determined by what
it holds. -/
theorem eq_of_sorted {α : Type} {le : α → α → Prop} {l l' : List α}
    (hs : l.Pairwise le) (hs' : l'.Pairwise le) (hnd : l.Nodup) (hnd' : l'.Nodup)
    (hmem : ∀ a, a ∈ l ↔ a ∈ l') (hanti : ∀ a ∈ l, ∀ b ∈ l, le a b → le b a → a = b) :
    l = l' := by
  have hperm : l.Perm l' := (List.perm_ext_iff_of_nodup hnd hnd').mpr hmem
  exact hperm.eq_of_pairwise
    (fun a b ha hb => hanti a ha b ((hmem b).mpr hb)) hs hs'

/-- The entries of a list with the keys told apart, as an override of nothing. -/
theorem updateAll_of_entries {κ ν : Type} [DecidableEq κ] {l : List (κ × ν)}
    {f : κ → Option ν} (hnd : (l.map Prod.fst).Nodup)
    (hmem : ∀ k v, (k, v) ∈ l ↔ f k = some v) : updateAll (fun _ => none) l = f := by
  funext k
  cases hf : f k with
  | none =>
      refine updateAll_of_notMem _ ?_
      intro hk
      obtain ⟨⟨k', v⟩, he, rfl⟩ := List.mem_map.mp hk
      have := (hmem k' v).mp he
      simp only [hf] at this
      cases this
  | some v => exact updateAll_of_mem _ hnd ((hmem k v).mpr hf)

/-! ## What a snapshot is of -/

/-- The snapshot `x` is of the block `h` of height `n`, where the state is `L`. -/
structure Snapshot.Of (x : Snapshot) (h : Hash256) (n : Nat) (L : StateReader) : Prop where
  block : x.block = h
  height : x.height = UInt64.ofNat n
  coinSorted : x.coins.Pairwise fun a b => a.1.le b.1
  coinNodup : (x.coins.map Prod.fst).Nodup
  coin : ∀ o c, (o, c) ∈ x.coins ↔ L.coin o = some c
  tokenSorted : x.tokens.Pairwise fun a b => a.id.toNat ≤ b.id.toNat
  tokenNodup : (x.tokens.map TokenInfo.id).Nodup
  token : ∀ t, t ∈ x.tokens ↔ L.token t.id = some t
  poolSorted : x.pools.Pairwise fun a b => a.token.toNat ≤ b.token.toNat
  poolNodup : (x.pools.map Pool.token).Nodup
  pool : ∀ p, p ∈ x.pools ↔ L.pool p.token = some p
  limits : x.Limits

theorem OutPoint.le_antisymm {a b : OutPoint} (h : a.le b = true) (h' : b.le a = true) :
    a = b := by
  obtain ⟨t, n⟩ := a
  obtain ⟨t', n'⟩ := b
  simp only [OutPoint.le, Bool.or_eq_true, Bool.and_eq_true, decide_eq_true_eq] at h h'
  have ht : t.toNat = t'.toNat := by omega
  have hn : n = n' := by
    have h₁ : n ≤ n' := by
      rcases h with h | h
      · omega
      · exact h.2
    have h₂ : n' ≤ n := by
      rcases h' with h' | h'
      · omega
      · exact h'.2
    exact UInt32.le_antisymm h₁ h₂
  rw [BitVec.eq_of_toNat_eq ht, hn]

theorem OutPoint.le_total (a b : OutPoint) : a.le b = true ∨ b.le a = true := by
  simp only [OutPoint.le, Bool.or_eq_true, Bool.and_eq_true, decide_eq_true_eq]
  rcases Nat.lt_trichotomy a.txid.toNat b.txid.toNat with h | h | h
  · exact .inl (.inl h)
  · rcases UInt32.le_total a.n b.n with hn | hn
    · exact .inl (.inr ⟨h, hn⟩)
    · exact .inr (.inr ⟨h.symm, hn⟩)
  · exact .inr (.inl h)

theorem OutPoint.le_trans {a b c : OutPoint} (h : a.le b = true) (h' : b.le c = true) :
    a.le c = true := by
  simp only [OutPoint.le, Bool.or_eq_true, Bool.and_eq_true, decide_eq_true_eq] at h h' ⊢
  rcases h with h | ⟨h, hn⟩
  · left
    omega
  · rcases h' with h' | ⟨h', hn'⟩
    · left
      omega
    · exact .inr ⟨h.trans h', UInt32.le_trans hn hn'⟩

theorem Snapshot.Of.unique {x y : Snapshot} {h : Hash256} {n : Nat} {L : StateReader}
    (hx : x.Of h n L) (hy : y.Of h n L) : x = y := by
  have hcoins : x.coins = y.coins := by
    refine eq_of_sorted hx.coinSorted hy.coinSorted hx.coinNodup.of_map hy.coinNodup.of_map
      (fun e => (hx.coin e.1 e.2).trans (hy.coin e.1 e.2).symm) ?_
    rintro ⟨o, c⟩ ha ⟨o', c'⟩ hb hle hle'
    have ho : o = o' := OutPoint.le_antisymm hle hle'
    have hc := (hx.coin o c).mp ha
    rw [ho, (hx.coin o' c').mp hb] at hc
    rw [ho, Option.some.inj hc]
  have htokens : x.tokens = y.tokens := by
    refine eq_of_sorted hx.tokenSorted hy.tokenSorted hx.tokenNodup.of_map
      hy.tokenNodup.of_map (fun t => (hx.token t).trans (hy.token t).symm) ?_
    intro a ha b hb hle hle'
    have hid : a.id = b.id := BitVec.eq_of_toNat_eq (Nat.le_antisymm hle hle')
    have ht := (hx.token a).mp ha
    rw [hid, (hx.token b).mp hb] at ht
    exact (Option.some.inj ht).symm
  have hpools : x.pools = y.pools := by
    refine eq_of_sorted hx.poolSorted hy.poolSorted hx.poolNodup.of_map hy.poolNodup.of_map
      (fun p => (hx.pool p).trans (hy.pool p).symm) ?_
    intro a ha b hb hle hle'
    have hid : a.token = b.token := BitVec.eq_of_toNat_eq (Nat.le_antisymm hle hle')
    have hp := (hx.pool a).mp ha
    rw [hid, (hx.pool b).mp hb] at hp
    exact (Option.some.inj hp).symm
  have hblock : x.block = y.block := hx.block.trans hy.block.symm
  have hheight : x.height = y.height := hx.height.trans hy.height.symm
  cases x
  cases y
  simp only at hblock hheight hcoins htokens hpools
  rw [hblock, hheight, hcoins, htokens, hpools]

namespace Chainstate

/-! ## Writing -/

def snapshot (s : Chainstate) : Snapshot :=
  ⟨s.tip, UInt64.ofNat s.height, s.allCoins, s.allTokens, s.allPools⟩

theorem serializeState_eq (s : Chainstate) : s.serializeState = s.snapshot.write := rfl

/-- What a map's values sorted by a key hold, where the key is in the value. -/
theorem mem_values {ν : Type} {m : UMap Hash256 ν} {key : ν → Hash256}
    (hk : ∀ i v, m.lookup i = some v → key v = i) (v : ν) :
    v ∈ (pairs m).map Prod.snd ↔ m.lookup (key v) = some v := by
  constructor
  · intro h
    obtain ⟨⟨i, w⟩, he, rfl⟩ := List.mem_map.mp h
    have hl := mem_pairs.mp he
    rw [hk i w hl, hl]
  · intro h
    exact List.mem_map.mpr ⟨(key v, v), mem_pairs.mpr h, rfl⟩

theorem values_keys {ν : Type} {m : UMap Hash256 ν} {key : ν → Hash256}
    (hk : ∀ i v, m.lookup i = some v → key v = i) :
    ((pairs m).map Prod.snd).map key = m.keys := by
  rw [List.map_map, ← pairs_fst]
  refine List.map_congr_left ?_
  rintro ⟨i, v⟩ he
  exact hk i v (mem_pairs.mp he)

theorem snapshot_of {s : Chainstate} (hk : s.reader.Keyed)
    (hu : s.utxo.keys.length < 2 ^ 64) (ht : s.tokens.keys.length < 2 ^ 64)
    (hp : s.pools.keys.length < 2 ^ 64) :
    s.snapshot.Of s.tip s.height s.reader := by
  have hcp : s.allCoins.Perm (pairs s.utxo) := List.perm_insertionSort ..
  have htp : s.allTokens.Perm ((pairs s.tokens).map Prod.snd) := List.perm_insertionSort ..
  have hpp : s.allPools.Perm ((pairs s.pools).map Prod.snd) := List.perm_insertionSort ..
  have htk : ∀ i t, s.tokens.lookup i = some t → t.id = i := fun i t h => (hk.token i t h).1
  have hpk : ∀ i p, s.pools.lookup i = some p → p.token = i := fun i p h => hk.pool i p h
  have : Std.Total fun a b : OutPoint × Coin => (a.1.le b.1 : Prop) :=
    ⟨fun a b => OutPoint.le_total a.1 b.1⟩
  have : IsTrans (OutPoint × Coin) fun a b => (a.1.le b.1 : Prop) :=
    ⟨fun a b c => OutPoint.le_trans⟩
  have : Std.Total fun a b : TokenInfo => a.id.toNat ≤ b.id.toNat :=
    ⟨fun a b => Nat.le_total a.id.toNat b.id.toNat⟩
  have : IsTrans TokenInfo fun a b => a.id.toNat ≤ b.id.toNat := ⟨fun a b c => Nat.le_trans⟩
  have : Std.Total fun a b : Pool => a.token.toNat ≤ b.token.toNat :=
    ⟨fun a b => Nat.le_total a.token.toNat b.token.toNat⟩
  have : IsTrans Pool fun a b => a.token.toNat ≤ b.token.toNat := ⟨fun a b c => Nat.le_trans⟩
  exact {
    block := rfl
    height := rfl
    coinSorted := List.pairwise_insertionSort _ _
    coinNodup := (hcp.map Prod.fst).nodup_iff.mpr (pairs_nodup _)
    coin := fun o c => hcp.mem_iff.trans mem_pairs
    tokenSorted := List.pairwise_insertionSort _ _
    tokenNodup := (htp.map TokenInfo.id).nodup_iff.mpr (by
      rw [values_keys htk]
      exact s.tokens.nodupKeys)
    token := fun t => htp.mem_iff.trans (mem_values htk t)
    poolSorted := List.pairwise_insertionSort _ _
    poolNodup := (hpp.map Pool.token).nodup_iff.mpr (by
      rw [values_keys hpk]
      exact s.pools.nodupKeys)
    pool := fun p => hpp.mem_iff.trans (mem_values hpk p)
    limits := {
      coins := by rwa [snapshot, hcp.length_eq, pairs_length]
      tokens := by rwa [snapshot, htp.length_eq, List.length_map, pairs_length]
      token := fun t h => (hk.token t.id t ((mem_values htk t).mp (htp.mem_iff.mp h))).2
      pools := by rwa [snapshot, hpp.length_eq, List.length_map, pairs_length] } }

/-! ## Reading back -/

theorem foldl_insertPool (l : List Pool) (s : Chainstate) :
    fn (l.foldl (fun s p => { s with
        pools := s.pools.insert p.token p
        supply := s.supply + p.qnt }) s).pools =
      updateAll (fn s.pools) (l.map fun p => (p.token, p)) ∧
    (l.foldl (fun s p => { s with
        pools := s.pools.insert p.token p
        supply := s.supply + p.qnt }) s).utxo = s.utxo ∧
    (l.foldl (fun s p => { s with
        pools := s.pools.insert p.token p
        supply := s.supply + p.qnt }) s).tokens = s.tokens := by
  induction l generalizing s with
  | nil => exact ⟨rfl, rfl, rfl⟩
  | cons p l ih =>
      obtain ⟨hp, hu, ht⟩ := ih { s with
        pools := s.pools.insert p.token p
        supply := s.supply + p.qnt }
      refine ⟨?_, hu, ht⟩
      rw [List.foldl_cons, hp, fn_insert]
      rfl

/-- The keys of an override by a list of values that hold their own keys. -/
theorem updateAll_of_values {ν : Type} {l : List ν} {key : ν → Hash256}
    {f : Hash256 → Option ν} (hnd : (l.map key).Nodup)
    (hmem : ∀ v, v ∈ l ↔ f (key v) = some v) (hk : ∀ i v, f i = some v → key v = i) :
    updateAll (fun _ => none) (l.map fun v => (key v, v)) = f := by
  refine updateAll_of_entries ?_ fun i v => ?_
  · rwa [List.map_map]
  · constructor
    · intro h
      obtain ⟨w, hw, he⟩ := List.mem_map.mp h
      cases he
      exact (hmem v).mp hw
    · intro h
      have hi := hk i v h
      subst hi
      exact List.mem_map.mpr ⟨v, (hmem v).mpr h, rfl⟩

theorem loadSnapshot_coins_tokens (s : Chainstate) (x : Snapshot) :
    ∃ t : Chainstate, t = x.tokens.foldl (fun s t => s.addToken t.id t)
        (x.coins.foldl (fun s e => s.addCoin e.1 e.2) s.clearState) ∧
      fn t.utxo = updateAll (fun _ => none) x.coins ∧
      fn t.tokens = updateAll (fun _ => none) (x.tokens.map fun t => (t.id, t)) ∧
      t.pools = ∅ := by
  refine ⟨_, rfl, ?_⟩
  have htok : x.tokens.foldl (fun s t => s.addToken t.id t)
      (x.coins.foldl (fun s e => s.addCoin e.1 e.2) s.clearState) =
      (x.tokens.map fun t => (t.id, t)).foldl (fun s e => s.addToken e.1 e.2)
        (x.coins.foldl (fun s e => s.addCoin e.1 e.2) s.clearState) := by
    rw [List.foldl_map]
  obtain ⟨hcu, hct, hcp⟩ := foldl_addCoin x.coins s.clearState
  obtain ⟨htt, htu, htp⟩ := foldl_addToken (x.tokens.map fun t => (t.id, t))
    (x.coins.foldl (fun s e => s.addCoin e.1 e.2) s.clearState)
  rw [htok, htu, htt, htp, hcu, hct, hcp]
  exact ⟨by rw [show fn s.clearState.utxo = fun _ => none from fn_empty],
    by rw [show fn s.clearState.tokens = fun _ => none from fn_empty], rfl⟩

theorem loadSnapshot_reader (s : Chainstate) {x : Snapshot} {h : Hash256} {n : Nat}
    {L : StateReader} (hL : L.Keyed) (hx : x.Of h n L) : (s.loadSnapshot x).reader = L := by
  obtain ⟨t, ht, hu, htok, hp⟩ := loadSnapshot_coins_tokens s x
  obtain ⟨hpp, hpu, hpt⟩ := foldl_insertPool x.pools t
  have hload : s.loadSnapshot x = x.pools.foldl (fun s p => { s with
      pools := s.pools.insert p.token p
      supply := s.supply + p.qnt }) t := by
    rw [ht]
    rfl
  have hcoin : fn (s.loadSnapshot x).utxo = L.coin := by
    rw [hload, hpu, hu]
    exact updateAll_of_entries hx.coinNodup hx.coin
  have htoken : fn (s.loadSnapshot x).tokens = L.token := by
    rw [hload, hpt, htok]
    exact updateAll_of_values hx.tokenNodup hx.token fun i v h => (hL.token i v h).1
  have hpool : fn (s.loadSnapshot x).pools = L.pool := by
    rw [hload, hpp, hp, fn_empty]
    exact updateAll_of_values hx.poolNodup hx.pool fun i v h => hL.pool i v h
  show (⟨fn (s.loadSnapshot x).utxo, fn (s.loadSnapshot x).tokens,
    fn (s.loadSnapshot x).pools⟩ : StateReader) = L
  rw [hcoin, htoken, hpool]

/-- No coin and no pool twice is all it takes for the index and the supply to
belong to what was read. -/
theorem loadSnapshot_accounts (s : Chainstate) {x : Snapshot}
    (hc : (x.coins.map Prod.fst).Nodup) (hp : (x.pools.map Pool.token).Nodup) :
    (s.loadSnapshot x).Accounts := by
  have hcoins : (x.coins.foldl (fun s e => s.addCoin e.1 e.2) s.clearState).Accounts :=
    (accounts_clear s).addCoins hc fun _ _ => AList.lookup_empty _
  obtain ⟨t, ht, -, -, hpools⟩ := loadSnapshot_coins_tokens s x
  have htok : t.Accounts := by
    have h := foldl_addToken_accounts hcoins (x.tokens.map fun t => (t.id, t))
    rw [List.foldl_map] at h
    rw [ht]
    exact h
  have hload : s.loadSnapshot x = x.pools.foldl (fun s p => { s with
      pools := s.pools.insert p.token p
      supply := s.supply + p.qnt }) t := by
    rw [ht]
    rfl
  rw [hload]
  refine htok.insertPools hp fun i _ => ?_
  rw [hpools]
  exact AList.lookup_empty _

/-! ## Round trip -/

/-- The maps hold their entries under the entries' own keys, and no more of them
than a count in the file can say. -/
structure Recorded (s : Chainstate) : Prop where
  keyed : s.reader.Keyed
  utxo : s.utxo.keys.length < 2 ^ 64
  tokens : s.tokens.keys.length < 2 ^ 64
  pools : s.pools.keys.length < 2 ^ 64

theorem Recorded.of {s : Chainstate} (h : s.Recorded) :
    s.snapshot.Of s.tip s.height s.reader :=
  snapshot_of h.keyed h.utxo h.tokens h.pools

theorem Recorded.read {s : Chainstate} (h : s.Recorded) :
    Snapshot.read s.serializeState = .ok (s.snapshot, []) :=
  (decodes_snapshot h.of.limits).run

/-- Reading the state back, into whatever state. -/
theorem parseState_serializeState {s : Chainstate} (h : s.Recorded) (ha : s.Accounts)
    (t : Chainstate) :
    ∃ t', t.parseState s.serializeState = (t', some (s.tip, UInt64.ofNat s.height)) ∧
      t'.reader = s.reader ∧ fn t'.byAddr = fn s.byAddr ∧ t'.supply = s.supply := by
  refine ⟨t.loadSnapshot s.snapshot, ?_, ?_⟩
  · rw [parseState, h.read]
    rfl
  · have hr := loadSnapshot_reader t h.keyed h.of
    obtain ⟨hb, hs⟩ := ha.ext (loadSnapshot_accounts t h.of.coinNodup h.of.poolNodup) hr
    exact ⟨hr, hb, hs⟩

/-- The bytes say the tip, the height and the maps, and nothing else. -/
theorem serializeState_eq_iff {s t : Chainstate} (hs : s.Recorded) (ht : t.Recorded) :
    s.serializeState = t.serializeState ↔
      s.tip = t.tip ∧ UInt64.ofNat s.height = UInt64.ofNat t.height ∧ s.reader = t.reader := by
  constructor
  · intro h
    have hread := hs.read
    rw [h, ht.read] at hread
    have hsnap : t.snapshot = s.snapshot := by
      injection hread with hread
      exact congrArg Prod.fst hread
    have hof := ht.of
    rw [hsnap] at hof
    refine ⟨(congrArg Snapshot.block hsnap).symm, (congrArg Snapshot.height hsnap).symm, ?_⟩
    rw [← loadSnapshot_reader s hs.keyed hs.of, ← loadSnapshot_reader s ht.keyed hof]
  · rintro ⟨htip, hheight, hreader⟩
    have hof := hs.of
    have hof' : t.snapshot.Of s.tip s.height s.reader := by
      have h := ht.of
      rw [htip, hreader]
      exact { h with height := h.height.trans hheight.symm }
    rw [serializeState_eq, serializeState_eq, hof.unique hof']

end Chainstate

end QuantCore
