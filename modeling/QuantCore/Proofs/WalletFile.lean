import Mathlib.Algebra.Group.Action.Defs
import Mathlib.Algebra.Order.BigOperators.Group.List
import QuantCore.Proofs.Codec
import QuantCore.Proofs.Payments
import QuantCore.Proofs.Sizes
import QuantCore.Proofs.Snapshot
import QuantCore.Proofs.WalletKeys

/-!
# What a wallet file gives back

A wallet's texts have no limits of their own, but the reader of its file has
some. So a file is read back exactly if the wallet keeps them, and what is read
is then the wallet that was written, its address index included; otherwise the
wallet cannot be opened again. Between the two, the seal adds a limit on the
size of the whole and is undone by the password it was made with.
-/

namespace QuantCore

open Codec Maps ByteReader

/-! ## The readers of single fields -/

theorem judges_varintMax (v max : UInt64) :
    Judges (varintMax max) (Writer.varint v) v (v.toNat ≤ max.toNat) where
  accepts := decodes_varintMax
  rejects := by
    intro h rest
    have hgt : v > max := by
      rw [gt_iff_lt, UInt64.lt_iff_toNat_lt]
      omega
    refine ⟨"value too large", ?_⟩
    show (varint (Writer.varint v ++ rest) >>= fun p =>
      (if p.1 > max then throw "value too large" else pure p.1 : ByteReader UInt64) p.2) = _
    rw [decodes_varint v rest]
    show (if v > max then throw "value too large" else pure v : ByteReader UInt64) rest = _
    rw [if_pos hgt]
    rfl

theorem judges_str {s : Bytes} (hs : s.length < 2 ^ 64) (max : UInt64) :
    Judges (str max) (Writer.str s) s (s.length ≤ max.toNat) := by
  have hn : (UInt64.ofNat s.length).toNat = s.length := by
    rw [UInt64.toNat_ofNat', Nat.mod_eq_of_lt hs]
  have h := (judges_varintMax (UInt64.ofNat s.length) max).bind
    (f := fun n => raw n.toNat) (decodes_raw hn.symm).judges
  rw [hn] at h
  exact h.congr ⟨fun h => h.1, fun h => ⟨h, trivial⟩⟩

theorem judges_readCounted {α γ : Type} {r : ByteReader α} {w : γ → Bytes} {g : γ → α}
    {p : γ → Prop} {xs : List γ} (hlen : xs.length < 2 ^ 64)
    (h : ∀ x ∈ xs, Judges r (w x) (g x) (p x)) :
    Judges (readCounted r) (Writer.size xs.length ++ xs.flatMap w) (xs.map g)
      (∀ x ∈ xs, p x) := by
  have hn : (UInt64.ofNat xs.length).toNat = xs.length := by
    rw [UInt64.toNat_ofNat', Nat.mod_eq_of_lt hlen]
  refine (decodes_varint _).bind_judges ?_
  rw [hn]
  exact judges_readMany h

theorem judges_readList {α : Type} {r : ByteReader α} {w : α → Bytes} {xs : List α} {max : Nat}
    (hmax : max < 2 ^ 64) (hlen : xs.length < 2 ^ 64) (h : ∀ x ∈ xs, Decodes r (w x) x) :
    Judges (readList max r) (Writer.size xs.length ++ xs.flatMap w) xs (xs.length ≤ max) := by
  have hn : (UInt64.ofNat xs.length).toNat = xs.length := by
    rw [UInt64.toNat_ofNat', Nat.mod_eq_of_lt hlen]
  have hm : (UInt64.ofNat max).toNat = max := by
    rw [UInt64.toNat_ofNat', Nat.mod_eq_of_lt hmax]
  have hb := (judges_varintMax (UInt64.ofNat xs.length) (UInt64.ofNat max)).bind
    (f := fun n => readMany r n.toNat) (c := xs.flatMap w) (y := xs)
    (Decodes.judges (by rw [hn]; exact decodes_readMany h))
  rw [hn, hm] at hb
  exact hb.congr ⟨fun h => h.1, fun h => ⟨h, trivial⟩⟩

theorem int64_ofInt_fits {i : Int} (hi : FitsWord i) : int64 (UInt64.ofInt i) = i := by
  refine eq_of_modEq ⟨BitVec.le_toInt _, BitVec.toInt_lt⟩ hi ((int64_modEq _).trans ?_)
  rw [UInt64.ofInt, UInt64.toNat_ofNat', Int.natCast_mod,
    Int.toNat_of_nonneg (Int.emod_nonneg _ (by decide))]
  exact (Int.mod_modEq _ _).trans (Int.mod_modEq _ _)

theorem decodes_signed {i : Int} (hi : FitsWord i) : Decodes readSigned (writeSigned i) i := by
  have h := (decodes_u64le (UInt64.ofInt i)).bind_pure (g := int64)
  rwa [int64_ofInt_fits hi] at h

theorem decodes_flag (b : Bool) : Decodes readFlag (writeFlag b) b := by
  cases b <;> exact fun _ => rfl

/-! ## Maps written in the order of their keys -/

theorem fn_insertAll_perm {κ ν : Type} [DecidableEq κ] {m : UMap κ ν} {l : List (κ × ν)}
    (h : l.Perm (pairs m)) : fn (insertAll ∅ l) = fn m := by
  funext k
  rw [fn_insertAll, fn_empty]
  cases hm : m.lookup k with
  | none =>
      rw [updateAll_of_notMem]
      · exact hm.symm
      · intro hk
        obtain ⟨⟨k', v⟩, he, rfl⟩ := List.mem_map.mp hk
        have hl := mem_pairs.mp (h.mem_iff.mp he)
        rw [hm] at hl
        cases hl
  | some v =>
      rw [updateAll_of_mem (v := v) _ ((h.map Prod.fst).nodup_iff.mpr (pairs_nodup m))
        (h.mem_iff.mpr (mem_pairs.mpr hm))]
      exact hm.symm

/-! ## What is written, and what is read

`Fits` is what the types of a wallet's fields promise. `Limits` is what the
reader asks for beyond that. -/

/-- The key pair has the sizes of one, and the address is its public key's. -/
structure FileKey.Paired [Crypto] (k : FileKey) : Prop where
  pk : k.pk.length = falconPkBytes
  sk : k.sk.length = falconSkBytes
  addr : k.addr = addressHash k.pk

structure FileTx.Fits (t : FileTx) : Prop where
  height : FitsWord t.height
  time : FitsWord t.time
  delta : FitsWord t.delta
  tokens : t.tokenDelta.keys.length < 2 ^ 64
  token : ∀ a v, t.tokenDelta.lookup a = some v → FitsWord v
  counterparty : t.counterparty.length < 2 ^ 64
  note : t.note.length < 2 ^ 64
  kind : t.kind.length < 2 ^ 64

instance (t : FileTx) : Decidable t.Fits :=
  decidable_of_iff (FitsWord t.height ∧ FitsWord t.time ∧ FitsWord t.delta ∧
      t.tokenDelta.keys.length < 2 ^ 64 ∧ (∀ e ∈ pairs t.tokenDelta, FitsWord e.2) ∧
      t.counterparty.length < 2 ^ 64 ∧ t.note.length < 2 ^ 64 ∧ t.kind.length < 2 ^ 64)
    ⟨fun ⟨hh, ht, hd, hn, hv, hc, hm, hk⟩ =>
        ⟨hh, ht, hd, hn, forall_mem_pairs.mp hv, hc, hm, hk⟩,
      fun h => ⟨h.height, h.time, h.delta, h.tokens, forall_mem_pairs.mpr h.token,
        h.counterparty, h.note, h.kind⟩⟩

structure FileTx.Limits (t : FileTx) : Prop where
  counterparty : t.counterparty.length ≤ 200
  note : t.note.length ≤ 1000
  kind : t.kind.length ≤ 32
  tokens : t.tokenDelta.keys.length ≤ 1000

instance (t : FileTx) : Decidable t.Limits :=
  decidable_of_iff (t.counterparty.length ≤ 200 ∧ t.note.length ≤ 1000 ∧ t.kind.length ≤ 32 ∧
      t.tokenDelta.keys.length ≤ 1000)
    ⟨fun ⟨hc, hn, hk, ht⟩ => ⟨hc, hn, hk, ht⟩,
      fun h => ⟨h.counterparty, h.note, h.kind, h.tokens⟩⟩

structure Contact.Fits (c : Contact) : Prop where
  name : c.name.length < 2 ^ 64
  address : c.address.length < 2 ^ 64

instance (c : Contact) : Decidable c.Fits :=
  decidable_of_iff (c.name.length < 2 ^ 64 ∧ c.address.length < 2 ^ 64)
    ⟨fun ⟨hn, ha⟩ => ⟨hn, ha⟩, fun h => ⟨h.name, h.address⟩⟩

structure Contact.Limits (c : Contact) : Prop where
  name : c.name.length ≤ 200
  address : c.address.length ≤ 200

instance (c : Contact) : Decidable c.Limits :=
  decidable_of_iff (c.name.length ≤ 200 ∧ c.address.length ≤ 200)
    ⟨fun ⟨hn, ha⟩ => ⟨hn, ha⟩, fun h => ⟨h.name, h.address⟩⟩

/-- An entry with its token amounts put in anew. -/
def FileTx.renewed (t : FileTx) : FileTx :=
  { t with tokenDelta := insertAll ∅ t.tokenDelta.sorted }

theorem judges_fileKey [Crypto] {k : FileKey} (h : k.Paired) (hl : k.label.length < 2 ^ 64) :
    Judges FileKey.read k.write k (k.label.length ≤ 200) := by
  rw [FileKey.write]
  simp only [List.append_assoc]
  refine (decodes_varint _).bind_judges ((decodes_raw h.pk).bind_judges
    ((decodes_raw h.sk).bind_judges ?_))
  have hk : (⟨k.index.toUInt64.toUInt32, k.pk, k.sk, addressHash k.pk, k.label, k.issued⟩ :
      FileKey) = k := by
    rw [toUInt32_toUInt64, ← h.addr]
  have hj := (judges_str hl 200).bind
    (f := fun l => do
      let issued ← readFlag
      pure (⟨k.index.toUInt64.toUInt32, k.pk, k.sk, addressHash k.pk, l, issued⟩ : FileKey))
    (decodes_flag k.issued).bind_pure.judges
  rw [hk] at hj
  exact hj.congr ⟨fun h => h.1, fun h => ⟨h, trivial⟩⟩

theorem decodes_walletCoin {e : OutPoint × WalletCoin} (hh : FitsWord e.2.height) :
    Decodes readWalletCoin (writeWalletCoin e) { e.2 with op := e.1 } := by
  rw [writeWalletCoin]
  simp only [List.append_assoc]
  have h : Decodes readWalletCoin (Writer.hash e.1.txid ++ (Writer.varint e.1.n.toUInt64 ++
      (writeTxOut e.2.out ++ (writeSigned e.2.height ++ (writeFlag e.2.coinbase ++
        writeFlag e.2.locked)))))
      ⟨⟨e.1.txid, e.1.n.toUInt64.toUInt32⟩, e.2.out, e.2.height, e.2.coinbase, e.2.locked⟩ :=
    (decodes_hash _).bind ((decodes_varint _).bind ((decodes_txOut _).bind
      ((decodes_signed hh).bind ((decodes_flag _).bind (decodes_flag _).bind_pure))))
  rwa [toUInt32_toUInt64] at h

theorem decodes_delta {e : Hash256 × Int} (h : FitsWord e.2) : Decodes readDelta (writeDelta e) e :=
  (decodes_hash e.1).bind ((decodes_signed h).bind_pure)

theorem sorted_perm (d : Deltas) : d.sorted.Perm (pairs d) := List.perm_insertionSort ..

theorem sorted_length (d : Deltas) : d.sorted.length = d.keys.length := by
  rw [(sorted_perm d).length_eq, pairs_length]

theorem judges_fileTx {t : FileTx} (h : t.Fits) :
    Judges FileTx.read t.write t.renewed t.Limits := by
  rw [FileTx.write]
  simp only [List.append_assoc]
  have hd : Judges (readList 1000 readDelta)
      (Writer.size t.tokenDelta.sorted.length ++ t.tokenDelta.sorted.flatMap writeDelta)
      t.tokenDelta.sorted (t.tokenDelta.sorted.length ≤ 1000) :=
    judges_readList (by decide) (by rw [sorted_length]; exact h.tokens) fun e he =>
      decodes_delta (h.token e.1 e.2 (mem_pairs.mp ((sorted_perm _).mem_iff.mp he)))
  refine Judges.congr ((decodes_hash t.txid).bind_judges ((decodes_signed h.height).bind_judges
    ((decodes_signed h.time).bind_judges ((decodes_signed h.delta).bind_judges
      ((decodes_varint t.fee).bind_judges ((judges_str h.counterparty 200).bind
        ((judges_str h.note 1000).bind ((decodes_flag t.coinbase).bind_judges
          ((judges_str h.kind 32).bind hd.bind_pure))))))))) ?_
  rw [sorted_length]
  exact ⟨fun ⟨hc, hn, hk, hd⟩ => ⟨hc, hn, hk, hd⟩, fun ⟨hc, hn, hk, hd⟩ => ⟨hc, hn, hk, hd⟩⟩

theorem judges_contact {c : Contact} (h : c.Fits) : Judges Contact.read c.write c c.Limits :=
  ((judges_str h.name 200).bind (judges_str h.address 200).bind_pure).congr
    ⟨fun ⟨hn, ha⟩ => ⟨hn, ha⟩, fun ⟨hn, ha⟩ => ⟨hn, ha⟩⟩

namespace WalletFile

structure Fits (f : WalletFile) : Prop where
  mnemonic : f.mnemonic.length < 2 ^ 64
  passphrase : f.passphrase.length < 2 ^ 64
  birthHeight : FitsWord f.birthHeight
  syncedHeight : FitsWord f.syncedHeight
  keys : f.keys.length < 2 ^ 64
  label : ∀ k ∈ f.keys, k.label.length < 2 ^ 64
  coins : f.coins.keys.length < 2 ^ 64
  coin : ∀ o c, f.coins.lookup o = some c → FitsWord c.height
  history : f.history.keys.length < 2 ^ 64
  entry : ∀ id t, f.history.lookup id = some t → t.Fits
  contacts : f.contacts.length < 2 ^ 64
  contact : ∀ c ∈ f.contacts, c.Fits

instance (f : WalletFile) : Decidable f.Fits :=
  decidable_of_iff (f.mnemonic.length < 2 ^ 64 ∧ f.passphrase.length < 2 ^ 64 ∧
      FitsWord f.birthHeight ∧ FitsWord f.syncedHeight ∧ f.keys.length < 2 ^ 64 ∧
      (∀ k ∈ f.keys, k.label.length < 2 ^ 64) ∧ f.coins.keys.length < 2 ^ 64 ∧
      (∀ e ∈ pairs f.coins, FitsWord e.2.height) ∧ f.history.keys.length < 2 ^ 64 ∧
      (∀ e ∈ pairs f.history, e.2.Fits) ∧ f.contacts.length < 2 ^ 64 ∧ ∀ c ∈ f.contacts, c.Fits)
    ⟨fun ⟨hm, hp, hb, hs, hk, hl, hc, hcoin, hh, he, hn, ht⟩ =>
        ⟨hm, hp, hb, hs, hk, hl, hc, forall_mem_pairs.mp hcoin, hh, forall_mem_pairs.mp he, hn, ht⟩,
      fun h => ⟨h.mnemonic, h.passphrase, h.birthHeight, h.syncedHeight, h.keys, h.label, h.coins,
        forall_mem_pairs.mpr h.coin, h.history, forall_mem_pairs.mpr h.entry, h.contacts, h.contact⟩⟩

/-- No text is longer than the reader takes, and no entry has too many tokens. -/
structure Limits (f : WalletFile) : Prop where
  mnemonic : f.mnemonic.length ≤ 1000
  passphrase : f.passphrase.length ≤ 1000
  label : ∀ k ∈ f.keys, k.label.length ≤ 200
  entry : ∀ id t, f.history.lookup id = some t → t.Limits
  contact : ∀ c ∈ f.contacts, c.Limits

instance (f : WalletFile) : Decidable f.Limits :=
  decidable_of_iff (f.mnemonic.length ≤ 1000 ∧ f.passphrase.length ≤ 1000 ∧
      (∀ k ∈ f.keys, k.label.length ≤ 200) ∧ (∀ e ∈ pairs f.history, e.2.Limits) ∧
      ∀ c ∈ f.contacts, c.Limits)
    ⟨fun ⟨hm, hp, hl, he, hc⟩ => ⟨hm, hp, hl, forall_mem_pairs.mp he, hc⟩,
      fun h => ⟨h.mnemonic, h.passphrase, h.label, forall_mem_pairs.mpr h.entry, h.contact⟩⟩

/-- A wallet with its maps put in anew. -/
def renewed (f : WalletFile) : WalletFile :=
  { f with
    coins := insertAll ∅ ((f.sortedCoins.map fun e => { e.2 with op := e.1 }).map fun c => (c.op, c))
    history := insertAll ∅ ((f.sortedHistory.map FileTx.renewed).map fun t => (t.txid, t)) }

theorem sortedCoins_perm (f : WalletFile) : f.sortedCoins.Perm (pairs f.coins) :=
  List.perm_insertionSort ..

theorem sortedHistory_perm (f : WalletFile) :
    f.sortedHistory.Perm ((pairs f.history).map Prod.snd) :=
  (List.perm_insertionSort ..).map _

theorem mem_sortedHistory {f : WalletFile} {t : FileTx} :
    t ∈ f.sortedHistory ↔ ∃ id, f.history.lookup id = some t := by
  rw [f.sortedHistory_perm.mem_iff, List.mem_map]
  exact ⟨fun ⟨e, he, ht⟩ => ⟨e.1, mem_pairs.mp (ht ▸ he)⟩, fun ⟨id, h⟩ => ⟨(id, t), mem_pairs.mpr h, rfl⟩⟩

theorem keyWrite_length_le [Crypto] {k : FileKey} (h : k.Paired) (hl : k.label.length ≤ 200) :
    k.write.length ≤ 2399 := by
  have hindex := varintSize_le_ten k.index.toUInt64
  have hsize := varintSize_le_ten (UInt64.ofNat k.label.length)
  have hlabel : (Writer.str k.label).length = varintSize (UInt64.ofNat k.label.length) +
      k.label.length := by
    rw [Writer.str, Writer.bytes, List.length_append, size_length]
  have hpk : k.pk.length = 897 := h.pk
  have hsk : k.sk.length = 1281 := h.sk
  have hflag : (writeFlag k.issued).length = 1 := rfl
  simp only [FileKey.write, List.length_append, varint_length, hpk, hsk, hlabel, hflag]
  omega

/-- What the keys add to the file of a wallet. -/
theorem serialize_length_le [Crypto] (net : Network) {f : WalletFile}
    (hpaired : ∀ k ∈ f.keys, k.Paired) (hl : ∀ k ∈ f.keys, k.label.length ≤ 200) :
    (f.serialize net).length ≤
      ({ f with keys := [] }.serialize net).length + 10 + f.keys.length * 2399 := by
  have hkeys := List.sum_le_card_nsmul (f.keys.map fun k => k.write.length) 2399 fun n hn => by
    obtain ⟨k, hk, rfl⟩ := List.mem_map.mp hn
    exact keyWrite_length_le (hpaired k hk) (hl k hk)
  have hsize := varintSize_le_ten (UInt64.ofNat f.keys.length)
  rw [List.length_map, smul_eq_mul] at hkeys
  simp only [serialize, sortedCoins, sortedHistory, List.length_append, size_length,
    List.length_flatMap] at hkeys ⊢
  omega

theorem judges_read [Crypto] (net : Network) {f : WalletFile} (h : f.Fits)
    (hpaired : ∀ k ∈ f.keys, k.Paired) :
    Judges (read net) (f.serialize net) f.renewed f.Limits := by
  have hkeys : Judges (readCounted FileKey.read)
      (Writer.size f.keys.length ++ f.keys.flatMap FileKey.write) (f.keys.map id)
      (∀ k ∈ f.keys, k.label.length ≤ 200) :=
    judges_readCounted h.keys fun k hk => judges_fileKey (hpaired k hk) (h.label k hk)
  have hcoins : Decodes (readCounted readWalletCoin)
      (Writer.size f.sortedCoins.length ++ f.sortedCoins.flatMap writeWalletCoin)
      (f.sortedCoins.map fun e => { e.2 with op := e.1 }) := by
    refine (judges_readCounted (p := fun _ => True) ?_ fun e he => ?_).accepts fun _ _ => trivial
    · rw [f.sortedCoins_perm.length_eq, pairs_length]
      exact h.coins
    · exact (decodes_walletCoin (h.coin e.1 e.2
        (mem_pairs.mp (f.sortedCoins_perm.mem_iff.mp he)))).judges
  have hhist : Judges (readCounted FileTx.read)
      (Writer.size f.sortedHistory.length ++ f.sortedHistory.flatMap FileTx.write)
      (f.sortedHistory.map FileTx.renewed) (∀ t ∈ f.sortedHistory, t.Limits) := by
    refine judges_readCounted ?_ fun t ht => ?_
    · rw [f.sortedHistory_perm.length_eq, List.length_map, pairs_length]
      exact h.history
    · obtain ⟨id, hl⟩ := mem_sortedHistory.mp ht
      exact judges_fileTx (h.entry id t hl)
  have hcontacts : Judges (readCounted Contact.read)
      (Writer.size f.contacts.length ++ f.contacts.flatMap Contact.write) (f.contacts.map id)
      (∀ c ∈ f.contacts, c.Limits) :=
    judges_readCounted h.contacts fun c hc => judges_contact (h.contact c hc)
  rw [List.map_id] at hkeys hcontacts
  have hname : net.name.length ≤ (32 : UInt64).toNat := by cases net <;> decide
  have hval : f.renewed =
      { f.renewed with
        birthHeight := int64 (UInt64.ofInt f.birthHeight)
        nextIndex := f.nextIndex.toUInt64.toUInt32 } := by
    rw [toUInt32_toUInt64, int64_ofInt_fits h.birthHeight]
    rfl
  have hlimits : (f.mnemonic.length ≤ (1000 : UInt64).toNat ∧
      f.passphrase.length ≤ (1000 : UInt64).toNat ∧ (∀ k ∈ f.keys, k.label.length ≤ 200) ∧
      (∀ t ∈ f.sortedHistory, t.Limits) ∧ ∀ c ∈ f.contacts, c.Limits) ↔ f.Limits :=
    ⟨fun ⟨hm, hp, hk, ht, hc⟩ =>
      ⟨hm, hp, hk, fun id t hl => ht t (mem_sortedHistory.mpr ⟨id, hl⟩), hc⟩,
    fun ⟨hm, hp, hk, ht, hc⟩ =>
      ⟨hm, hp, hk, fun t hl => (mem_sortedHistory.mp hl).elim fun id hl => ht id t hl, hc⟩⟩
  refine Judges.congr ?_ hlimits
  rw [serialize, hval]
  -- the lists stay in one piece when the fields are taken apart
  generalize Writer.size f.keys.length ++ f.keys.flatMap FileKey.write = bk at hkeys ⊢
  generalize Writer.size f.sortedCoins.length ++ f.sortedCoins.flatMap writeWalletCoin = bc
    at hcoins ⊢
  generalize Writer.size f.sortedHistory.length ++ f.sortedHistory.flatMap FileTx.write = bh
    at hhist ⊢
  generalize Writer.size f.contacts.length ++ f.contacts.flatMap Contact.write = bt
    at hcontacts ⊢
  simp only [List.append_assoc]
  refine (decodes_u32le 3).bind_judges ?_
  rw [if_neg fun h => h rfl]
  refine (decodes_str hname).bind_judges ?_
  rw [if_neg fun h => h rfl]
  exact (judges_str h.mnemonic 1000).bind ((judges_str h.passphrase 1000).bind
    ((decodes_varint _).bind_judges ((decodes_hash _).bind_judges
      ((decodes_signed h.syncedHeight).bind_judges ((decodes_varint _).bind_judges
        (hkeys.bind (hcoins.bind_judges (hhist.bind hcontacts.bind_pure))))))))

end WalletFile

/-! ## Two wallets that are one -/

/-- Entries equal but for how their token amounts are stored. -/
structure FileTx.Same (t u : FileTx) : Prop where
  fields : u = { t with tokenDelta := u.tokenDelta }
  tokens : fn u.tokenDelta = fn t.tokenDelta

/-- Wallets equal but for how their maps are stored. -/
structure WalletFile.Same (f g : WalletFile) : Prop where
  fields : g = { f with coins := g.coins, history := g.history }
  coins : fn g.coins = fn f.coins
  history : ∀ id, Option.Rel FileTx.Same (f.history.lookup id) (g.history.lookup id)

theorem renewed_same (t : FileTx) : t.Same t.renewed where
  fields := rfl
  tokens := fn_insertAll_perm (sorted_perm _)

namespace WalletFile

theorem renewed_coins {f : WalletFile} (hc : ∀ o c, f.coins.lookup o = some c → c.op = o) :
    fn f.renewed.coins = fn f.coins := by
  have hmap : (f.sortedCoins.map fun e => ({ e.2 with op := e.1 } : WalletCoin)).map
      (fun c => (c.op, c)) = f.sortedCoins := by
    rw [List.map_map]
    refine (List.map_congr_left fun e he => ?_).trans (List.map_id _)
    obtain ⟨o, c⟩ := e
    have hop := hc o c (mem_pairs.mp (f.sortedCoins_perm.mem_iff.mp he))
    subst hop
    rfl
  rw [renewed, hmap]
  exact fn_insertAll_perm f.sortedCoins_perm

theorem renewed_history {f : WalletFile}
    (hh : ∀ id t, f.history.lookup id = some t → t.txid = id) (id : Hash256) :
    Option.Rel FileTx.Same (f.history.lookup id) (f.renewed.history.lookup id) := by
  have hkeys : ((f.sortedHistory.map FileTx.renewed).map fun t => (t.txid, t)).map Prod.fst =
      f.sortedHistory.map FileTx.txid := by
    rw [List.map_map, List.map_map]
    rfl
  have hnd : (f.sortedHistory.map FileTx.txid).Nodup := by
    rw [(f.sortedHistory_perm.map FileTx.txid).nodup_iff, Chainstate.values_keys hh]
    exact f.history.nodupKeys
  have hl : f.renewed.history.lookup id = updateAll (fun _ => none)
      ((f.sortedHistory.map FileTx.renewed).map fun t => (t.txid, t)) id := by
    show fn f.renewed.history id = _
    rw [renewed, fn_insertAll, fn_empty]
  rw [hl]
  cases ht : f.history.lookup id with
  | none =>
      rw [updateAll_of_notMem]
      · exact .none
      · rw [hkeys]
        intro hm
        obtain ⟨t, hs, rfl⟩ := List.mem_map.mp hm
        obtain ⟨id, hid⟩ := mem_sortedHistory.mp hs
        rw [hh id t hid, hid] at ht
        cases ht
  | some t =>
      have hm : (id, t.renewed) ∈
          (f.sortedHistory.map FileTx.renewed).map fun t => (t.txid, t) := by
        rw [List.map_map, ← hh id t ht]
        exact List.mem_map.mpr ⟨t, mem_sortedHistory.mpr ⟨id, ht⟩, rfl⟩
      rw [updateAll_of_mem _ (hkeys ▸ hnd) hm]
      exact .some (renewed_same t)

theorem same_renewed {f : WalletFile} (hc : ∀ o c, f.coins.lookup o = some c → c.op = o)
    (hh : ∀ id t, f.history.lookup id = some t → t.txid = id) : f.Same f.renewed where
  fields := rfl
  coins := renewed_coins hc
  history := renewed_history hh

theorem fn_byAddr (f : WalletFile) : fn f.byAddr = Wallet.indexOf (f.keys.map FileKey.addr) := by
  have h : f.byAddr = insertAll ∅ (f.keys.map FileKey.addr).zipIdx := by
    rw [insertAll, List.zipIdx_map, List.foldl_map]
    rfl
  rw [h, fn_insertAll, fn_empty]
  rfl

end WalletFile

/-! ## The seal -/

theorem keystreamXor_length [FileCrypto] (k : Hash256) (nonce data : Bytes) :
    (keystreamXor k nonce data).length = data.length := by
  rw [keystreamXor, List.length_map, List.length_zipIdx]

/-- The key stream does not depend on the data, so that twice is never. -/
theorem keystreamXor_twice [FileCrypto] (k : Hash256) (nonce data : Bytes) :
    keystreamXor k nonce (keystreamXor k nonce data) = data := by
  refine List.ext_getElem (by rw [keystreamXor_length, keystreamXor_length]) fun i h h' => ?_
  simp only [keystreamXor, List.getElem_map, List.getElem_zipIdx, Nat.zero_add]
  rw [UInt8.xor_assoc, UInt8.xor_self, UInt8.xor_zero]

theorem size_ne_nil (n : Nat) : Writer.size n ≠ [] := by
  rw [Writer.size, Writer.varint, Writer.varintLoop]
  split
  · exact List.cons_ne_nil _ _
  · exact List.cons_ne_nil _ _

/-- What is sealed, in front of its MAC. -/
def sealedBody (salt nonce ct : Bytes) : Bytes :=
  textBytes "QWAL" ++ Writer.u8 1 ++ salt ++ Writer.u32le kdfRounds ++ nonce ++ Writer.bytes ct

theorem judges_readSealed {salt nonce ct : Bytes} (hs : salt.length = 16) (hn : nonce.length = 16)
    (hc : ct.length < 2 ^ 64) :
    Judges readSealed (sealedBody salt nonce ct) (salt, kdfRounds, nonce, ct)
      (ct.length ≤ 2 ^ 28) := by
  rw [sealedBody]
  simp only [List.append_assoc]
  refine (decodes_raw (by decide)).bind_judges ?_
  rw [if_neg fun h => h rfl]
  refine (decodes_u8 1).bind_judges ?_
  rw [if_neg fun h => h rfl]
  exact (decodes_raw hs).bind_judges ((decodes_u32le _).bind_judges ((decodes_raw hn).bind_judges
    (judges_str hc (UInt64.ofNat (2 ^ 28))).bind_pure))

/-- What was sealed under a password is unsealed under it, up to a limit. -/
theorem unseal_seal [Crypto] [FileCrypto] {salt nonce plain : Bytes} (hs : salt.length = 16)
    (hn : nonce.length = 16) (hp : plain.length < 2 ^ 64) (pw : Bytes) :
    (plain.length ≤ 2 ^ 28 → unsealFile (sealFile salt nonce plain pw) pw = .ok plain) ∧
      (¬ plain.length ≤ 2 ^ 28 → ∃ e, unsealFile (sealFile salt nonce plain pw) pw = .error e) := by
  generalize hk : kdf pw salt kdfRounds = k
  generalize hct : keystreamXor (FileCrypto.blake3Keyed k (textBytes "enc")) nonce plain = ct
  generalize hmk : FileCrypto.blake3Keyed k (textBytes "mac") = mk
  have hseal : sealFile salt nonce plain pw = sealedBody salt nonce ct ++
      (FileCrypto.blake3Keyed mk (sealedBody salt nonce ct)).bytes := by
    rw [sealFile]
    simp only [hk, hct, hmk]
    rfl
  have hlen : ct.length = plain.length := by rw [← hct, keystreamXor_length]
  have hj := judges_readSealed hs hn (show ct.length < 2 ^ 64 by omega)
  have hmac := Hash256.bytes_length (FileCrypto.blake3Keyed mk (sealedBody salt nonce ct))
  have hbody : 42 ≤ (sealedBody salt nonce ct).length := by
    have hpos : 0 < (Writer.bytes ct).length := by
      rw [Writer.bytes, List.length_append]
      have := List.length_pos_iff.mpr (size_ne_nil ct.length)
      omega
    simp only [sealedBody, List.length_append, hs, hn, Writer.u32le, leBytes_length]
    show 42 ≤ 4 + 1 + 16 + 4 + 16 + _
    omega
  have hbig : ¬ (sealedBody salt nonce ct ++
      (FileCrypto.blake3Keyed mk (sealedBody salt nonce ct)).bytes).length <
        4 + 1 + 16 + 4 + 16 + 1 + 32 := by
    rw [List.length_append, hmac]
    omega
  have hcut : (sealedBody salt nonce ct ++
      (FileCrypto.blake3Keyed mk (sealedBody salt nonce ct)).bytes).length - 32 =
        (sealedBody salt nonce ct).length := by
    rw [List.length_append, hmac]
    omega
  rw [hseal, unsealFile, if_neg hbig, hcut, List.take_left, List.drop_left]
  refine ⟨fun hle => ?_, fun hle => ?_⟩
  · simp only [(hj.accepts (hlen ▸ hle)).run, hk, hmk]
    rw [if_neg (fun h => h rfl), ← hct, keystreamXor_twice]
  · obtain ⟨e, he⟩ := hj.rejects (hlen ▸ hle) []
    rw [List.append_nil] at he
    simp only [he]
    exact ⟨e, rfl⟩

/-! ## A wallet in use -/

namespace WalletFile

/-- A file is refused on a network other than the one it is for. -/
theorem read_other [Crypto] {net net' : Network} (hne : net' ≠ net) (f : WalletFile) :
    deserialize net' (f.serialize net) = none := by
  have hname : net.name.length ≤ (32 : UInt64).toNat := by cases net <;> decide
  have hdiff : net.name ≠ net'.name := by
    revert hne
    cases net <;> cases net' <;> decide
  have hrej : ∀ r, read net' (f.serialize net) ≠ .ok r := by
    rintro ⟨g, rest⟩ h
    rw [serialize] at h
    simp only [List.append_assoc] at h
    obtain ⟨v, mid, hv, h⟩ := bind_ok h
    rw [decodes_u32le 3] at hv
    cases hv
    rw [if_neg fun h => h rfl] at h
    obtain ⟨name, mid, hn, h⟩ := bind_ok h
    rw [decodes_str hname] at hn
    cases hn
    rw [if_pos hdiff] at h
    cases h
  rw [deserialize]
  cases hr : read net' (f.serialize net) with
  | error e => rfl
  | ok r => exact absurd hr (hrej r)

end WalletFile

namespace Wallet

variable [Crypto] {net : Network} {o : Owner} {w : Wallet}

theorem Used.filed (hw : Used net o w) : w.Filed ∧ HistoryFiled w.history := by
  induction hw with
  | created h =>
      have hr : Reachable _ := .created h
      exact ⟨hr.filed, hr.historyFiled⟩
  | step hw h ih => exact ⟨ih.1.step h, step_historyFiled ih.2 h⟩
  | edited hw birthHeight contacts ih => exact ih

theorem Used.file_paired (hw : Used net o w) : ∀ k ∈ (w.file o).keys, k.Paired := by
  intro k hk
  obtain ⟨k, hm, rfl⟩ := List.mem_map.mp hk
  obtain ⟨i, hi⟩ := List.getElem?_of_mem hm
  obtain ⟨hd, ha⟩ := hw.derived
  obtain ⟨hidx, haddr⟩ := hd.ring.key i k hi
  refine ⟨(o.keyPair k.index).pkSize, (o.keyPair k.index).skSize, ?_⟩
  show k.addr = _
  rw [haddr, ha, ← hidx]
  rfl

omit [Crypto] in
theorem file_history_filed (h : HistoryFiled w.history) :
    ∀ id t, (w.file o).history.lookup id = some t → t.txid = id := by
  intro id t ht
  rcases mem_of_lookup_insertAll ht with hm | hm
  · obtain ⟨e, he, heq⟩ := List.mem_map.mp hm
    cases heq
    exact h e.1 e.2 (mem_pairs.mp he)
  · rw [AList.lookup_empty] at hm
    cases hm

/-- The file of a wallet in use opens again, under the password and on the network
it was saved with, exactly if it keeps the reader's limits and is no larger than
the seal allows. What is opened is then the wallet, with the same address index. -/
theorem Used.openFile_save [FileCrypto] (hw : Used net o w) (hf : (w.file o).Fits)
    (hsize : ((w.file o).serialize net).length < 2 ^ 64) {salt nonce : Bytes}
    (hs : salt.length = 16) (hn : nonce.length = 16) (pw : Bytes) :
    ((w.file o).Limits ∧ ((w.file o).serialize net).length ≤ 2 ^ 28 →
      ∃ f, WalletFile.openFile net pw ((w.file o).save net salt nonce pw) = .ok f ∧
        (w.file o).Same f ∧ fn f.byAddr = fn w.byAddr) ∧
    (¬ ((w.file o).Limits ∧ ((w.file o).serialize net).length ≤ 2 ^ 28) →
      ∃ e, WalletFile.openFile net pw ((w.file o).save net salt nonce pw) = .error e) ∧
    ∀ net' ≠ net,
      ∃ e, WalletFile.openFile net' pw ((w.file o).save net salt nonce pw) = .error e := by
  have hj := WalletFile.judges_read net hf hw.file_paired
  obtain ⟨hseal, hlarge⟩ := unseal_seal hs hn hsize pw
  refine ⟨fun ⟨hl, hle⟩ => ⟨(w.file o).renewed, ?_, ?_, ?_⟩, fun hno => ?_, fun net' hne => ?_⟩
  · rw [WalletFile.openFile, WalletFile.save, hseal hle]
    simp only [WalletFile.deserialize]
    rw [(hj.accepts hl).run]
    rfl
  · exact WalletFile.same_renewed hw.filed.1.coins (file_history_filed hw.filed.2)
  · rw [WalletFile.fn_byAddr, hw.derived.1.ring.byAddr, watchedAddresses]
    show indexOf ((w.keys.map _).map FileKey.addr) = _
    rw [List.map_map]
    rfl
  · rw [WalletFile.openFile, WalletFile.save]
    by_cases hle : ((w.file o).serialize net).length ≤ 2 ^ 28
    · obtain ⟨e, he⟩ := hj.rejects (fun hl => hno ⟨hl, hle⟩) []
      rw [List.append_nil] at he
      rw [hseal hle]
      simp only [WalletFile.deserialize, he]
      exact ⟨_, rfl⟩
    · obtain ⟨e, he⟩ := hlarge hle
      rw [he]
      exact ⟨e, rfl⟩
  · rw [WalletFile.openFile, WalletFile.save]
    by_cases hle : ((w.file o).serialize net).length ≤ 2 ^ 28
    · rw [hseal hle]
      simp only [WalletFile.read_other hne]
      exact ⟨_, rfl⟩
    · obtain ⟨e, he⟩ := hlarge hle
      rw [he]
      exact ⟨e, rfl⟩

end Wallet

/-! ## The file of a wallet that was paid -/

namespace Wallet

attribute [local instance] stampCrypto

@[reducible] def stampFileCrypto : FileCrypto where
  blake3Keyed := fun k b => k + BitVec.ofNat 256 (ofLeBytes (b.take 32))
  blake3Xof := fun _ b i => b.getD (i % 48) 0

attribute [local instance] stampFileCrypto

theorem paidWallet_fits : (paidWallet.file seedOwner).Fits := by decide +kernel

theorem paidWallet_limits : (paidWallet.file seedOwner).Limits := by decide +kernel

theorem paidWallet_size :
    ((paidWallet.file seedOwner).serialize .regtest).length ≤ 2 ^ 28 := by
  have hlen : (paidWallet.file seedOwner).keys.length = 49 := by decide +kernel
  have hrest : ({ paidWallet.file seedOwner with keys := [] }.serialize .regtest).length ≤ 1000 := by
    decide +kernel
  calc ((paidWallet.file seedOwner).serialize .regtest).length
      ≤ _ + 10 + (paidWallet.file seedOwner).keys.length * 2399 :=
        WalletFile.serialize_length_le .regtest paidWallet_used.file_paired paidWallet_limits.label
    _ ≤ 1000 + 10 + 49 * 2399 :=
        Nat.add_le_add (Nat.add_le_add_right hrest 10) (Nat.mul_le_mul_right _ hlen.le)
    _ ≤ 2 ^ 28 := by decide

/-- A file with two coins and their history. -/
theorem openFile_save_paid :
    ((paidWallet.file seedOwner).coins.keys.length = 2 ∧
      (paidWallet.file seedOwner).history.keys.length = 1) ∧
    ∃ f, WalletFile.openFile .regtest (textBytes "pw") ((paidWallet.file seedOwner).save .regtest
        (List.replicate 16 1) (List.replicate 16 2) (textBytes "pw")) = .ok f ∧
      (paidWallet.file seedOwner).Same f ∧ fn f.byAddr = fn paidWallet.byAddr :=
  ⟨by decide +kernel, (paidWallet_used.openFile_save paidWallet_fits
    (Nat.lt_of_le_of_lt paidWallet_size (by decide)) (by decide) (by decide) (textBytes "pw")).1
    ⟨paidWallet_limits, paidWallet_size⟩⟩

end Wallet

end QuantCore
