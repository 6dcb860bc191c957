import QuantCore.Crypto.Instances
import QuantCore.Proofs.Codec

/-!
# One encoding for one value

The readers of transactions and blocks accept nothing but what the writers
write. Integers are the reason: a varint that ends in an empty group is refused,
and so is one that does not fit, so every 64-bit value has one varint. The rest
of the format has no choices left: flags are compared with the two values they
can have, and a token output must not name the QNT asset.

Together with the round trip, encoding and decoding are inverse to each other
between the values within the reader's limits and the byte strings it accepts.
-/

namespace QuantCore

open Codec

namespace ByteReader

/-! ## Fixed widths -/

theorem canonical_raw (k : Nat) : Canonical (raw k) id fun b => b.length = k := by
  intro bs x rest h
  rw [raw] at h
  split at h
  · cases h
  · next hk =>
      cases h
      exact ⟨(List.take_append_drop k bs).symm, List.length_take_of_le (by omega)⟩

theorem canonical_u8 : Canonical u8 Writer.u8 fun _ => True := by
  intro bs x rest h
  cases bs with
  | nil => cases h
  | cons b bs =>
      cases h
      exact ⟨rfl, trivial⟩

theorem ofLeBytes_lt (b : Bytes) : ofLeBytes b < 256 ^ b.length := by
  induction b with
  | nil => exact Nat.one_pos
  | cons c b ih =>
      have := c.toNat_lt
      rw [ofLeBytes, List.length_cons, Nat.pow_succ]
      omega

theorem leBytes_ofLeBytes (b : Bytes) : leBytes b.length (ofLeBytes b) = b := by
  induction b with
  | nil => rfl
  | cons c b ih =>
      have hc := c.toNat_lt
      have hdiv : (c.toNat + 256 * ofLeBytes b) / 256 = ofLeBytes b := by omega
      have hlow : UInt8.ofNat (c.toNat + 256 * ofLeBytes b) = c := by
        apply UInt8.toNat.inj
        rw [UInt8.toNat_ofNat']
        omega
      rw [List.length_cons, ofLeBytes, leBytes, hdiv, hlow, ih]

theorem canonical_u32le : Canonical u32le Writer.u32le fun _ => True := by
  intro bs x rest h
  obtain ⟨b, mid, hb, h⟩ := bind_ok h
  obtain ⟨rfl, rfl⟩ := pure_ok h
  obtain ⟨rfl, hlen⟩ := canonical_raw 4 bs b rest hb
  have hlt := ofLeBytes_lt b
  rw [hlen] at hlt
  have hval : (UInt32.ofNat (ofLeBytes b)).toNat = ofLeBytes b := by
    rw [UInt32.toNat_ofNat']
    omega
  refine ⟨?_, trivial⟩
  rw [Writer.u32le, hval, ← hlen, leBytes_ofLeBytes]
  rfl

theorem canonical_u64le : Canonical u64le Writer.u64le fun _ => True := by
  intro bs x rest h
  obtain ⟨b, mid, hb, h⟩ := bind_ok h
  obtain ⟨rfl, rfl⟩ := pure_ok h
  obtain ⟨rfl, hlen⟩ := canonical_raw 8 bs b rest hb
  have hlt := ofLeBytes_lt b
  rw [hlen] at hlt
  have hval : (UInt64.ofNat (ofLeBytes b)).toNat = ofLeBytes b := by
    rw [UInt64.toNat_ofNat']
    omega
  refine ⟨?_, trivial⟩
  rw [Writer.u64le, hval, ← hlen, leBytes_ofLeBytes]
  rfl

theorem bytes_ofBytes {b : Bytes} (h : b.length = 32) : (Hash256.ofBytes b).bytes = b := by
  have hlt := ofLeBytes_lt b.reverse
  rw [List.length_reverse, h] at hlt
  have hpow : (256 : Nat) ^ 32 = 2 ^ 256 := by decide
  rw [hpow] at hlt
  rw [Hash256.bytes, Hash256.ofBytes, BitVec.toNat_ofNat, Nat.mod_eq_of_lt hlt]
  have hinv := leBytes_ofLeBytes b.reverse
  rw [List.length_reverse, h] at hinv
  rw [hinv, List.reverse_reverse]

theorem canonical_hash : Canonical hash Writer.hash fun _ => True := by
  intro bs x rest h
  obtain ⟨b, mid, hb, h⟩ := bind_ok h
  obtain ⟨rfl, rfl⟩ := pure_ok h
  obtain ⟨rfl, hlen⟩ := canonical_raw 32 bs b rest hb
  exact ⟨by rw [Writer.hash, bytes_ofBytes hlen]; rfl, trivial⟩

/-! ## Varints -/

/-- The last group of a varint. -/
theorem writer_varintLoop_last {k : Nat} {v : UInt64} (h : v.toNat < 128) :
    Writer.varintLoop k v = [v.toUInt8] := by
  cases k with
  | zero => rfl
  | succ k =>
      have hlt : ¬ v ≥ 0x80 := by
        rw [ge_iff_le, UInt64.le_iff_toNat_le]
        show ¬ 128 ≤ v.toNat
        omega
      rw [Writer.varintLoop, if_neg hlt]

/-- One round of the reader: the group it takes, and whether it is the last. -/
theorem varintLoop_ok {k i : Nat} {acc r : UInt64} {bs rest : Bytes}
    (h : varintLoop (k + 1) (7 * i) acc bs = .ok (r, rest)) :
    ∃ c mid, bs = Writer.u8 c ++ mid ∧ (i = 9 → c.toNat ≤ 1) ∧
      ((c.toNat < 128 ∧ (0 < i → c.toNat ≠ 0) ∧ rest = mid ∧
          r = acc ||| ((c &&& 0x7f).toUInt64 <<< UInt64.ofNat (7 * i))) ∨
        (128 ≤ c.toNat ∧ varintLoop k (7 * (i + 1))
          (acc ||| ((c &&& 0x7f).toUInt64 <<< UInt64.ofNat (7 * i))) mid = .ok (r, rest))) := by
  rw [varintLoop] at h
  obtain ⟨c, mid, hc, hr⟩ := bind_ok h
  refine ⟨c, mid, (canonical_u8 bs c mid hc).1, ?_⟩
  split at hr
  · cases hr
  next hover =>
  refine ⟨fun hi => ?_, ?_⟩
  · by_contra hne
    refine hover ⟨by omega, ?_⟩
    rw [gt_iff_lt, UInt8.lt_iff_toNat_lt]
    show 1 < c.toNat
    omega
  simp only [] at hr
  split at hr
  · next hmark =>
      split at hr
      · cases hr
      next hzero =>
      obtain ⟨rfl, rfl⟩ := pure_ok hr
      refine .inl ⟨(and_mark_eq_zero_iff c).mp hmark, fun hi h0 => ?_, rfl, rfl⟩
      exact hzero ⟨UInt8.toNat.inj h0, by omega⟩
  · next hmark =>
      refine .inr ⟨?_, hr⟩
      by_contra hlt
      exact hmark ((and_mark_eq_zero_iff c).mpr (by omega))

/-- The value of a group and its weight fit in 64 bits. -/
theorem group_fits {i : Nat} (hi : i ≤ 9) {c : UInt8} (h : i = 9 → c.toNat ≤ 1) :
    c.toNat % 128 * 2 ^ (7 * i) < 2 ^ 64 := by
  rcases Nat.lt_or_ge i 9 with hlt | hge
  · have hpow : (2 : Nat) ^ (7 * i) ≤ 2 ^ 56 := Nat.pow_le_pow_right (by decide) (by omega)
    calc c.toNat % 128 * 2 ^ (7 * i) ≤ 127 * 2 ^ 56 := Nat.mul_le_mul (by omega) hpow
      _ < 2 ^ 64 := by decide
  · have hnine : i = 9 := by omega
    have := h hnine
    rw [hnine]
    omega

/-- From the group of weight `2 ^ (7 * i)` on, the groups read are those of one
value, the shortest way to write it. -/
theorem canonical_varintLoop {k i : Nat} (hk : k + i = 9) {acc r : UInt64}
    {bs rest : Bytes} (hacc : acc.toNat < 2 ^ (7 * i))
    (h : varintLoop (k + 1) (7 * i) acc bs = .ok (r, rest)) :
    ∃ v : UInt64, bs = Writer.varintLoop k v ++ rest ∧ (0 < i → v.toNat ≠ 0) ∧
      v.toNat * 2 ^ (7 * i) < 2 ^ 64 ∧ r.toNat = acc.toNat + v.toNat * 2 ^ (7 * i) := by
  induction k generalizing i acc bs with
  | zero =>
      obtain ⟨c, mid, rfl, hover, ⟨hlt, h0, rfl, rfl⟩ | ⟨-, hr⟩⟩ := varintLoop_ok h
      · have hfit := group_fits (by omega) hover
        have hx : ((c &&& 0x7f).toUInt64).toNat = c.toNat % 128 := by
          rw [UInt8.toNat_toUInt64, and_mask_toNat]
        refine ⟨c.toUInt64, ?_, ?_, ?_, ?_⟩
        · rw [writer_varintLoop_last (by rwa [UInt8.toNat_toUInt64]), UInt8.toUInt8_toUInt64]
          rfl
        · rwa [UInt8.toNat_toUInt64]
        · rwa [UInt8.toNat_toUInt64, ← Nat.mod_eq_of_lt hlt]
        · rw [or_group_toNat (by omega) hacc (by rwa [hx]), hx, Nat.mod_eq_of_lt hlt,
            UInt8.toNat_toUInt64]
      · rw [varintLoop] at hr
        cases hr
  | succ k ih =>
      obtain ⟨c, mid, rfl, hover, hcase⟩ := varintLoop_ok h
      have hfit := group_fits (by omega) hover
      have hx : ((c &&& 0x7f).toUInt64).toNat = c.toNat % 128 := by
        rw [UInt8.toNat_toUInt64, and_mask_toNat]
      have hor := or_group_toNat (i := i) (by omega) hacc (by rwa [hx])
      rw [hx] at hor
      rcases hcase with ⟨hlt, h0, rfl, rfl⟩ | ⟨hge, hr⟩
      · refine ⟨c.toUInt64, ?_, ?_, ?_, ?_⟩
        · rw [writer_varintLoop_last (by rwa [UInt8.toNat_toUInt64]), UInt8.toUInt8_toUInt64]
          rfl
        · rwa [UInt8.toNat_toUInt64]
        · rwa [UInt8.toNat_toUInt64, ← Nat.mod_eq_of_lt hlt]
        · rw [hor, Nat.mod_eq_of_lt hlt, UInt8.toNat_toUInt64]
      · have hclt := c.toNat_lt
        have hpow : (2 : Nat) ^ (7 * (i + 1)) = 128 * 2 ^ (7 * i) := by
          rw [show 7 * (i + 1) = 7 * i + 7 by omega, Nat.pow_add]
          omega
        have hacc' : (acc ||| ((c &&& 0x7f).toUInt64 <<< UInt64.ofNat (7 * i))).toNat <
            2 ^ (7 * (i + 1)) := by
          have : c.toNat % 128 * 2 ^ (7 * i) ≤ 127 * 2 ^ (7 * i) :=
            Nat.mul_le_mul_right _ (by omega)
          rw [hor, hpow]
          omega
        obtain ⟨v, rfl, hne, hvfit, hr⟩ := ih (i := i + 1) (by omega) hacc' hr
        have hne := hne (Nat.succ_pos i)
        -- The group and what follows it are one value.
        have hsum : (v.toNat * 128 + c.toNat % 128) * 2 ^ (7 * i) =
            v.toNat * 2 ^ (7 * (i + 1)) + c.toNat % 128 * 2 ^ (7 * i) := by
          rw [hpow, Nat.add_mul, Nat.mul_assoc]
        have hrlt := r.toNat_lt
        have hone : 1 ≤ 2 ^ (7 * i) := Nat.one_le_two_pow
        have hle : v.toNat * 128 + c.toNat % 128 ≤
            (v.toNat * 128 + c.toNat % 128) * 2 ^ (7 * i) := Nat.le_mul_of_pos_right _ hone
        have hval : (UInt64.ofNat (v.toNat * 128 + c.toNat % 128)).toNat =
            v.toNat * 128 + c.toNat % 128 := by
          rw [UInt64.toNat_ofNat', Nat.mod_eq_of_lt (by omega)]
        refine ⟨UInt64.ofNat (v.toNat * 128 + c.toNat % 128), ?_, ?_, ?_, ?_⟩
        · have hmore : UInt64.ofNat (v.toNat * 128 + c.toNat % 128) ≥ 0x80 := by
            rw [ge_iff_le, UInt64.le_iff_toNat_le, hval]
            show 128 ≤ _
            omega
          have hbyte : (UInt64.ofNat (v.toNat * 128 + c.toNat % 128) ||| 0x80).toUInt8 = c := by
            apply UInt8.toNat.inj
            rw [group_toNat, hval]
            omega
          have hshift : UInt64.ofNat (v.toNat * 128 + c.toNat % 128) >>> 7 = v := by
            apply UInt64.toNat.inj
            rw [UInt64.toNat_shiftRight, hval]
            show (v.toNat * 128 + c.toNat % 128) >>> 7 = _
            rw [Nat.shiftRight_eq_div_pow]
            omega
          rw [Writer.varintLoop, if_pos hmore, hbyte, hshift]
          rfl
        · rw [hval]
          omega
        · rw [hval]
          omega
        · rw [hval, hr, hor]
          omega

theorem canonical_varint : Canonical varint Writer.varint fun _ => True := by
  intro bs x rest h
  have h₀ : varintLoop (9 + 1) (7 * 0) 0 bs = .ok (x, rest) := h
  obtain ⟨v, hbs, -, -, hv⟩ := canonical_varintLoop rfl Nat.one_pos h₀
  have hx : x = v := by
    apply UInt64.toNat.inj
    rw [hv]
    show 0 + v.toNat * 1 = v.toNat
    omega
  rw [hx]
  exact ⟨hbs, trivial⟩

theorem canonical_varintMax (max : UInt64) :
    Canonical (varintMax max) Writer.varint fun v => v.toNat ≤ max.toNat := by
  intro bs x rest h
  obtain ⟨v, mid, hv, h⟩ := bind_ok h
  split at h
  · cases h
  next hle =>
  obtain ⟨rfl, rfl⟩ := pure_ok h
  refine ⟨(canonical_varint bs x rest hv).1, ?_⟩
  rw [gt_iff_lt, UInt64.lt_iff_toNat_lt] at hle
  omega

theorem writer_size_toNat (v : UInt64) : Writer.size v.toNat = Writer.varint v := by
  rw [Writer.size, UInt64.ofNat_toNat]

theorem canonical_bytes (max : UInt64) :
    Canonical (bytes max) Writer.bytes fun b => b.length ≤ max.toNat := by
  intro bs x rest h
  obtain ⟨n, mid, hn, hb⟩ := bind_ok h
  obtain ⟨rfl, hle⟩ := canonical_varintMax max bs n mid hn
  obtain ⟨rfl, hlen⟩ := canonical_raw n.toNat mid x rest hb
  refine ⟨?_, by omega⟩
  rw [Writer.bytes, hlen, writer_size_toNat, List.append_assoc]
  rfl

theorem canonical_str (max : UInt64) :
    Canonical (str max) Writer.str fun b => b.length ≤ max.toNat :=
  canonical_bytes max

end ByteReader

open ByteReader

theorem canonical_readList {α : Type} {max : Nat} (hmax : max < 2 ^ 64) {r : ByteReader α}
    {w : α → Bytes} {P : α → Prop} (h : Canonical r w P) :
    Canonical (readList max r) (fun xs => Writer.size xs.length ++ xs.flatMap w)
      fun xs => xs.length ≤ max ∧ ∀ x ∈ xs, P x := by
  intro bs xs rest hr
  obtain ⟨n, mid, hn, hxs⟩ := bind_ok hr
  obtain ⟨rfl, hle⟩ := canonical_varintMax _ bs n mid hn
  obtain ⟨rfl, hlen, hP⟩ := canonical_readMany h n.toNat mid xs rest hxs
  rw [UInt64.toNat_ofNat', Nat.mod_eq_of_lt hmax] at hle
  refine ⟨?_, by omega, hP⟩
  show _ = Writer.size xs.length ++ xs.flatMap w ++ rest
  rw [hlen, writer_size_toNat, List.append_assoc]

theorem canonical_text {m : Nat} (hm : m < 2 ^ 64) :
    Canonical (str (UInt64.ofNat m)) Writer.str fun b => b.length ≤ m := by
  intro bs x rest h
  have hx := canonical_str _ bs x rest h
  rwa [UInt64.toNat_ofNat', Nat.mod_eq_of_lt hm] at hx

/-! ## Transactions -/

theorem toUInt64_toUInt32 {v : UInt64} (h : v.toNat ≤ u32Max.toNat) :
    v.toUInt32.toUInt64 = v := by
  have hmax : u32Max.toNat = 4294967295 := rfl
  apply UInt64.toNat.inj
  rw [UInt32.toNat_toUInt64, UInt64.toNat_toUInt32]
  omega

theorem canonical_outPoint : Canonical readOutPoint writeOutPoint fun _ => True := by
  intro bs x rest h
  obtain ⟨txid, mid, ht, h⟩ := bind_ok h
  obtain ⟨n, mid', hn, h⟩ := bind_ok h
  obtain ⟨rfl, rfl⟩ := pure_ok h
  obtain ⟨rfl, -⟩ := canonical_hash _ _ _ ht
  obtain ⟨rfl, hle⟩ := canonical_varintMax _ _ _ _ hn
  refine ⟨?_, trivial⟩
  rw [writeOutPoint, toUInt64_toUInt32 hle, List.append_assoc]

theorem canonical_txIn : Canonical (TxIn.mk <$> readOutPoint) (fun i => writeOutPoint i.prev)
    fun _ => True := by
  intro bs x rest h
  obtain ⟨o, mid, ho, h⟩ := bind_ok (f := fun o => (pure (TxIn.mk o) : ByteReader TxIn)) h
  obtain ⟨rfl, rfl⟩ := pure_ok h
  exact canonical_outPoint _ _ _ ho

theorem canonical_asset : Canonical readAsset
    (fun a => if a.isZero then Writer.u8 0 else Writer.u8 1 ++ Writer.hash a)
    fun _ => True := by
  intro bs x rest h
  obtain ⟨f, mid, hf, hr⟩ := bind_ok h
  obtain ⟨rfl, -⟩ := canonical_u8 _ _ _ hf
  refine ⟨?_, trivial⟩
  split at hr
  · next hone =>
      obtain ⟨a, mid', ha, hz⟩ := bind_ok hr
      obtain ⟨rfl, -⟩ := canonical_hash _ _ _ ha
      split at hz
      · cases hz
      next hnz =>
      obtain ⟨rfl, rfl⟩ := pure_ok hz
      show _ = (if x.isZero then Writer.u8 0 else Writer.u8 1 ++ Writer.hash x) ++ rest
      rw [if_neg hnz, hone, List.append_assoc]
  · split at hr
    · cases hr
    next hzero =>
    obtain ⟨rfl, rfl⟩ := pure_ok hr
    rw [not_not.mp hzero]
    rfl

theorem canonical_txOut : Canonical readTxOut writeTxOut fun _ => True := by
  intro bs x rest h
  obtain ⟨value, mid, hv, h⟩ := bind_ok h
  obtain ⟨asset, mid', ha, h⟩ := bind_ok h
  obtain ⟨addr, mid'', hd, h⟩ := bind_ok h
  obtain ⟨rfl, rfl⟩ := pure_ok h
  obtain ⟨rfl, -⟩ := canonical_varint _ _ _ hv
  obtain ⟨rfl, -⟩ := canonical_asset _ _ _ ha
  obtain ⟨rfl, -⟩ := canonical_hash _ _ _ hd
  refine ⟨?_, trivial⟩
  simp only [writeTxOut, TxOut.isQnt, List.append_assoc]
  rfl

theorem canonical_sell :
    Canonical readSell (fun b => Writer.u8 (if b then 1 else 0)) fun _ => True := by
  intro bs x rest h
  obtain ⟨f, mid, hf, hr⟩ := bind_ok h
  obtain ⟨rfl, -⟩ := canonical_u8 _ _ _ hf
  split at hr
  · cases hr
  next hle =>
  obtain ⟨rfl, rfl⟩ := pure_ok hr
  refine ⟨?_, trivial⟩
  rw [gt_iff_lt, UInt8.lt_iff_toNat_lt] at hle
  have hone : (1 : UInt8).toNat = 1 := rfl
  rcases Nat.lt_or_ge f.toNat 1 with h0 | h1
  · have : f = 0 := UInt8.toNat.inj (by show f.toNat = 0; omega)
    rw [this]
    rfl
  · have : f = 1 := UInt8.toNat.inj (by show f.toNat = 1; omega)
    rw [this]
    rfl

theorem canonical_op : Canonical readOp writeOp TxOp.Limits := by
  intro bs x rest h
  obtain ⟨t, mid, ht, hr⟩ := bind_ok h
  obtain ⟨rfl, -⟩ := canonical_u8 _ _ _ ht
  split at hr
  · next htag =>
      obtain ⟨ticker, m₁, h₁, hr⟩ := bind_ok hr
      obtain ⟨name, m₂, h₂, hr⟩ := bind_ok hr
      obtain ⟨decimals, m₃, h₃, hr⟩ := bind_ok hr
      obtain ⟨supply, m₄, h₄, hr⟩ := bind_ok hr
      obtain ⟨uri, m₅, h₅, hr⟩ := bind_ok hr
      obtain ⟨rfl, rfl⟩ := pure_ok hr
      obtain ⟨rfl, hl₁⟩ := canonical_text (by decide) _ _ _ h₁
      obtain ⟨rfl, hl₂⟩ := canonical_text (by decide) _ _ _ h₂
      obtain ⟨rfl, -⟩ := canonical_u8 _ _ _ h₃
      obtain ⟨rfl, -⟩ := canonical_varint _ _ _ h₄
      obtain ⟨rfl, hl₅⟩ := canonical_text (by decide) _ _ _ h₅
      refine ⟨?_, hl₁, hl₂, hl₅⟩
      simp only [writeOp, htag, List.append_assoc]
  split at hr
  · next htag =>
      obtain ⟨token, m₁, h₁, hr⟩ := bind_ok hr
      obtain ⟨qnt, m₂, h₂, hr⟩ := bind_ok hr
      obtain ⟨tok, m₃, h₃, hr⟩ := bind_ok hr
      obtain ⟨shares, m₄, h₄, hr⟩ := bind_ok hr
      obtain ⟨rfl, rfl⟩ := pure_ok hr
      obtain ⟨rfl, -⟩ := canonical_hash _ _ _ h₁
      obtain ⟨rfl, -⟩ := canonical_varint _ _ _ h₂
      obtain ⟨rfl, -⟩ := canonical_varint _ _ _ h₃
      obtain ⟨rfl, -⟩ := canonical_varint _ _ _ h₄
      refine ⟨?_, trivial⟩
      simp only [writeOp, htag, List.append_assoc]
  split at hr
  · next htag =>
      obtain ⟨token, m₁, h₁, hr⟩ := bind_ok hr
      obtain ⟨qnt, m₂, h₂, hr⟩ := bind_ok hr
      obtain ⟨tok, m₃, h₃, hr⟩ := bind_ok hr
      obtain ⟨shares, m₄, h₄, hr⟩ := bind_ok hr
      obtain ⟨rfl, rfl⟩ := pure_ok hr
      obtain ⟨rfl, -⟩ := canonical_hash _ _ _ h₁
      obtain ⟨rfl, -⟩ := canonical_varint _ _ _ h₂
      obtain ⟨rfl, -⟩ := canonical_varint _ _ _ h₃
      obtain ⟨rfl, -⟩ := canonical_varint _ _ _ h₄
      refine ⟨?_, trivial⟩
      simp only [writeOp, htag, List.append_assoc]
  split at hr
  · next htag =>
      obtain ⟨token, m₁, h₁, hr⟩ := bind_ok hr
      obtain ⟨shares, m₂, h₂, hr⟩ := bind_ok hr
      obtain ⟨qnt, m₃, h₃, hr⟩ := bind_ok hr
      obtain ⟨tok, m₄, h₄, hr⟩ := bind_ok hr
      obtain ⟨rfl, rfl⟩ := pure_ok hr
      obtain ⟨rfl, -⟩ := canonical_hash _ _ _ h₁
      obtain ⟨rfl, -⟩ := canonical_varint _ _ _ h₂
      obtain ⟨rfl, -⟩ := canonical_varint _ _ _ h₃
      obtain ⟨rfl, -⟩ := canonical_varint _ _ _ h₄
      refine ⟨?_, trivial⟩
      simp only [writeOp, htag, List.append_assoc]
  split at hr
  · next htag =>
      obtain ⟨token, m₁, h₁, hr⟩ := bind_ok hr
      obtain ⟨sell, m₂, h₂, hr⟩ := bind_ok hr
      obtain ⟨amountIn, m₃, h₃, hr⟩ := bind_ok hr
      obtain ⟨amountOut, m₄, h₄, hr⟩ := bind_ok hr
      obtain ⟨rfl, rfl⟩ := pure_ok hr
      obtain ⟨rfl, -⟩ := canonical_hash _ _ _ h₁
      obtain ⟨rfl, -⟩ := canonical_sell _ _ _ h₂
      obtain ⟨rfl, -⟩ := canonical_varint _ _ _ h₃
      obtain ⟨rfl, -⟩ := canonical_varint _ _ _ h₄
      refine ⟨?_, trivial⟩
      simp only [writeOp, htag, List.append_assoc]
  split at hr
  · next htag =>
      obtain ⟨sender, m₁, h₁, hr⟩ := bind_ok hr
      obtain ⟨recipient, m₂, h₂, hr⟩ := bind_ok hr
      obtain ⟨gift, m₃, h₃, hr⟩ := bind_ok hr
      obtain ⟨text, m₄, h₄, hr⟩ := bind_ok hr
      obtain ⟨rfl, rfl⟩ := pure_ok hr
      obtain ⟨rfl, -⟩ := canonical_hash _ _ _ h₁
      obtain ⟨rfl, -⟩ := canonical_hash _ _ _ h₂
      obtain ⟨rfl, -⟩ := canonical_u8 _ _ _ h₃
      obtain ⟨rfl, hl₄⟩ := canonical_text (by decide) _ _ _ h₄
      refine ⟨?_, hl₄⟩
      simp only [writeOp, htag, List.append_assoc]
  · cases hr

theorem canonical_witness : Canonical readWitness writeWitness Witness.Limits := by
  intro bs x rest h
  obtain ⟨t, mid, ht, hr⟩ := bind_ok h
  obtain ⟨rfl, -⟩ := canonical_u8 _ _ _ ht
  split at hr
  · next htag =>
      obtain ⟨input, m₁, h₁, hr⟩ := bind_ok hr
      obtain ⟨rfl, rfl⟩ := pure_ok hr
      obtain ⟨rfl, hle⟩ := canonical_varintMax _ _ _ _ h₁
      have hle' : input.toNat ≤ maxTxInputs := hle
      have hback : input.toUInt32.toUInt64 = input := by
        apply toUInt64_toUInt32
        show input.toNat ≤ 4294967295
        have : maxTxInputs = 10000 := rfl
        omega
      refine ⟨?_, ?_⟩
      · simp only [writeWitness, htag, hback, List.append_assoc]
      · show input.toUInt32.toNat ≤ maxTxInputs
        rwa [← UInt32.toNat_toUInt64, hback]
  split at hr
  · next htag =>
      obtain ⟨pk, m₁, h₁, hr⟩ := bind_ok hr
      obtain ⟨sig, m₂, h₂, hr⟩ := bind_ok hr
      obtain ⟨rfl, rfl⟩ := pure_ok hr
      obtain ⟨rfl, hpk⟩ := canonical_raw _ _ _ _ h₁
      obtain ⟨rfl, hsig⟩ := canonical_bytes _ _ _ _ h₂
      refine ⟨?_, hpk, hsig⟩
      simp only [writeWitness, htag, id_eq, List.append_assoc]
  · cases hr

theorem canonical_txCore : Canonical Transaction.readCore Transaction.writeCore
    fun t => t.Limits ∧ t.witness = [] := by
  intro bs x rest h
  obtain ⟨version, m₁, h₁, h⟩ := bind_ok h
  obtain ⟨ins, m₂, h₂, h⟩ := bind_ok h
  obtain ⟨outs, m₃, h₃, h⟩ := bind_ok h
  obtain ⟨ops, m₄, h₄, h⟩ := bind_ok h
  obtain ⟨lock, m₅, h₅, h⟩ := bind_ok h
  obtain ⟨extra, m₆, h₆, h⟩ := bind_ok h
  obtain ⟨rfl, rfl⟩ := pure_ok h
  obtain ⟨rfl, hv⟩ := canonical_varintMax _ _ _ _ h₁
  obtain ⟨rfl, hins, -⟩ := canonical_readList (by decide) canonical_txIn _ _ _ h₂
  obtain ⟨rfl, houts, -⟩ := canonical_readList (by decide) canonical_txOut _ _ _ h₃
  obtain ⟨rfl, hops, hop⟩ := canonical_readList (by decide) canonical_op _ _ _ h₄
  obtain ⟨rfl, -⟩ := canonical_varint _ _ _ h₅
  obtain ⟨rfl, hextra⟩ := canonical_bytes _ _ _ _ h₆
  refine ⟨?_, ⟨hins, houts, hops, hop, hextra, Nat.zero_le _, fun w hw => by cases hw⟩, rfl⟩
  simp only [Transaction.writeCore, toUInt64_toUInt32 hv, List.append_assoc]

/-- What `read_witness` fills in is what it read; the rest is as it was. -/
theorem canonical_txWitness {t x : Transaction} {bs rest : Bytes}
    (h : t.readWitnesses bs = .ok (x, rest)) (ht : t.Limits) :
    bs = x.writeWitnesses ++ rest ∧ x.Limits ∧ x.core = t.core := by
  obtain ⟨ws, mid, hw, h⟩ := bind_ok h
  obtain ⟨rfl, rfl⟩ := pure_ok h
  obtain ⟨rfl, hlen, hws⟩ := canonical_readList (by decide) canonical_witness _ _ _ hw
  exact ⟨rfl, ⟨ht.ins, ht.outs, ht.ops, ht.op, ht.extra, hlen, hws⟩, rfl⟩

theorem canonical_txFull :
    Canonical Transaction.readFull Transaction.writeFull Transaction.Limits := by
  intro bs x rest h
  obtain ⟨t, mid, ht, hr⟩ := bind_ok h
  obtain ⟨rfl, hlim, -⟩ := canonical_txCore _ _ _ ht
  obtain ⟨rfl, hx, hcore⟩ := canonical_txWitness hr hlim
  refine ⟨?_, hx⟩
  rw [Transaction.writeFull, ← writeCore_core x, hcore, writeCore_core, List.append_assoc]

theorem decodes_txFull {t : Transaction} (h : t.Limits) :
    Decodes Transaction.readFull t.writeFull t :=
  (decodes_txCore h).bind (decodes_txWitness (t := t.core) h.witness h.signature)

/-! ## Blocks -/

theorem canonical_header : Canonical BlockHeader.read BlockHeader.write fun _ => True := by
  intro bs x rest h
  obtain ⟨version, m₁, h₁, h⟩ := bind_ok h
  obtain ⟨prev, m₂, h₂, h⟩ := bind_ok h
  obtain ⟨merkle, m₃, h₃, h⟩ := bind_ok h
  obtain ⟨witness, m₄, h₄, h⟩ := bind_ok h
  obtain ⟨commit, m₅, h₅, h⟩ := bind_ok h
  obtain ⟨time, m₆, h₆, h⟩ := bind_ok h
  obtain ⟨bits, m₇, h₇, h⟩ := bind_ok h
  obtain ⟨nonce, m₈, h₈, h⟩ := bind_ok h
  obtain ⟨rfl, rfl⟩ := pure_ok h
  obtain ⟨rfl, -⟩ := canonical_u32le _ _ _ h₁
  obtain ⟨rfl, -⟩ := canonical_hash _ _ _ h₂
  obtain ⟨rfl, -⟩ := canonical_hash _ _ _ h₃
  obtain ⟨rfl, -⟩ := canonical_hash _ _ _ h₄
  obtain ⟨rfl, -⟩ := canonical_hash _ _ _ h₅
  obtain ⟨rfl, -⟩ := canonical_u64le _ _ _ h₆
  obtain ⟨rfl, -⟩ := canonical_u32le _ _ _ h₇
  obtain ⟨rfl, -⟩ := canonical_u64le _ _ _ h₈
  refine ⟨?_, trivial⟩
  simp only [BlockHeader.write, List.append_assoc]

theorem canonical_blockCore : Canonical Block.readCore Block.coreBytes
    fun b => b.Limits ∧ b.core = b := by
  intro bs x rest h
  obtain ⟨header, m₁, h₁, h⟩ := bind_ok h
  obtain ⟨txs, m₂, h₂, h⟩ := bind_ok h
  obtain ⟨rfl, rfl⟩ := pure_ok h
  obtain ⟨rfl, -⟩ := canonical_header _ _ _ h₁
  obtain ⟨rfl, hlen, htxs⟩ := canonical_readList (by decide) canonical_txCore _ _ _ h₂
  refine ⟨?_, ⟨hlen, fun t ht => (htxs t ht).1⟩, ?_⟩
  · simp only [Block.coreBytes, List.append_assoc]
  · have hmap : txs.map Transaction.core = txs := by
      conv_rhs => rw [← List.map_id txs]
      refine List.map_congr_left fun t ht => ?_
      show t.core = t
      rw [Transaction.core, ← (htxs t ht).2]
    rw [Block.core, hmap]

theorem canonical_witnessesOf {ts xs : List Transaction} {bs rest : Bytes}
    (h : Block.readWitnessesOf ts bs = .ok (xs, rest)) (hts : ∀ t ∈ ts, t.Limits) :
    bs = xs.flatMap Transaction.writeWitnesses ++ rest ∧
      (∀ x ∈ xs, x.Limits) ∧ xs.map Transaction.core = ts.map Transaction.core := by
  induction ts generalizing xs bs with
  | nil =>
      obtain ⟨rfl, rfl⟩ := pure_ok h
      exact ⟨rfl, fun x hx => absurd hx List.not_mem_nil, rfl⟩
  | cons t ts ih =>
      obtain ⟨x, m₁, h₁, h⟩ := bind_ok h
      obtain ⟨ys, m₂, h₂, h⟩ := bind_ok h
      obtain ⟨rfl, rfl⟩ := pure_ok h
      obtain ⟨rfl, hx, hcore⟩ := canonical_txWitness h₁ (hts t (List.mem_cons_self ..))
      obtain ⟨rfl, hys, hyst⟩ := ih h₂ fun u hu => hts u (List.mem_cons_of_mem t hu)
      refine ⟨by rw [List.flatMap_cons, List.append_assoc], fun y hy => ?_, ?_⟩
      · rcases List.mem_cons.mp hy with rfl | hy
        · exact hx
        · exact hys y hy
      · rw [List.map_cons, List.map_cons, hcore, hyst]

theorem canonical_blockFull : Canonical Block.readFull Block.fullBytes Block.Limits := by
  intro bs x rest h
  obtain ⟨b, mid, hb, hr⟩ := bind_ok h
  obtain ⟨rfl, hlim, -⟩ := canonical_blockCore _ _ _ hb
  obtain ⟨txs, m₁, h₁, hr⟩ := bind_ok hr
  obtain ⟨rfl, rfl⟩ := pure_ok hr
  obtain ⟨rfl, hw, hcore⟩ := canonical_witnessesOf h₁ hlim.tx
  have hbytes : Block.coreBytes { b with txs } = b.coreBytes := by
    rw [← coreBytes_core b, ← coreBytes_core { b with txs }, Block.core, Block.core, hcore]
  have hlen : txs.length = b.txs.length := by
    have := congrArg List.length hcore
    rwa [List.length_map, List.length_map] at this
  refine ⟨?_, ⟨by rw [hlen]; exact hlim.txs, hw⟩⟩
  rw [Block.fullBytes, hbytes, List.append_assoc]
  rfl

theorem decodes_blockWitnessFull {b : Block} (h : b.Limits) :
    Decodes b.core.readWitness b.witnessBytes b := by
  have hlen : b.core.txs.length = b.txs.length := List.length_map ..
  have hd := decodes_blockWitness h hlen
  rwa [core_withWitness] at hd

theorem decodes_blockFull {b : Block} (h : b.Limits) :
    Decodes Block.readFull b.fullBytes b :=
  (decodes_blockCore h).bind (decodes_blockWitnessFull h)

/-! ## The encoding as a whole -/

variable [Crypto]

/-- Encoding and decoding are inverse to each other, in front of any suffix: what
is within the reader's limits is read back, and what is read is written back to
the bytes it was read from. So an accepted byte string is the only one for its
transaction, and hashing it gives the txid. -/
theorem encoding_canonical :
    (∀ (t : Transaction) (rest : Bytes), t.Limits →
      Transaction.readFull (t.writeFull ++ rest) = .ok (t, rest) ∧
      Transaction.readCore (t.writeCore ++ rest) = .ok (t.core, rest) ∧
      t.core.readWitnesses (t.writeWitnesses ++ rest) = .ok (t, rest)) ∧
    (∀ (b : Block) (rest : Bytes), b.Limits →
      Block.readFull (b.fullBytes ++ rest) = .ok (b, rest) ∧
      Block.readCore (b.coreBytes ++ rest) = .ok (b.core, rest) ∧
      b.core.readWitness (b.witnessBytes ++ rest) = .ok (b, rest)) ∧
    (∀ (h : BlockHeader) (rest : Bytes),
      BlockHeader.read (h.write ++ rest) = .ok (h, rest) ∧ h.write.length = 152) ∧
    (∀ (bs : Bytes) (t : Transaction) (rest : Bytes),
      (Transaction.readCore bs = .ok (t, rest) →
        bs = t.writeCore ++ rest ∧ t.Limits ∧ t.witness = []) ∧
      (Transaction.readFull bs = .ok (t, rest) → bs = t.writeFull ++ rest ∧ t.Limits)) ∧
    (∀ (bs : Bytes) (b : Block) (rest : Bytes),
      (Block.readCore bs = .ok (b, rest) →
        bs = b.coreBytes ++ rest ∧ b.Limits ∧ b.core = b) ∧
      (Block.readFull bs = .ok (b, rest) → bs = b.fullBytes ++ rest ∧ b.Limits)) ∧
    (∀ (bs : Bytes) (h : BlockHeader) (rest : Bytes),
      BlockHeader.read bs = .ok (h, rest) → bs = h.write ++ rest) ∧
    (∀ (as bs : Bytes) (t : Transaction),
      (Transaction.readCore as = .ok (t, []) → Transaction.readCore bs = .ok (t, []) →
        as = bs ∧ t.txid = blake3Tagged .txid as) ∧
      (Transaction.readFull as = .ok (t, []) → Transaction.readFull bs = .ok (t, []) →
        as = bs)) := by
  refine ⟨fun t rest h => ?_, fun b rest h => ?_, fun h rest => ?_, fun bs t rest => ?_,
    fun bs b rest => ?_, fun bs h rest hr => (canonical_header bs h rest hr).1,
    fun as bs t => ?_⟩
  · exact ⟨decodes_txFull h rest, decodes_txCore h rest,
      decodes_txWitness (t := t.core) h.witness h.signature rest⟩
  · exact ⟨decodes_blockFull h rest, decodes_blockCore h rest,
      decodes_blockWitnessFull h rest⟩
  · exact ⟨decodes_header h rest, header_write_length h⟩
  · exact ⟨canonical_txCore bs t rest, canonical_txFull bs t rest⟩
  · exact ⟨canonical_blockCore bs b rest, canonical_blockFull bs b rest⟩
  · refine ⟨fun ha hb => ⟨canonical_txCore.unique ha hb, ?_⟩, canonical_txFull.unique⟩
    rw [(canonical_txCore as t [] ha).1, List.append_nil]
    rfl

/-- A token payment with a trade and a signature reused, and nothing after it. -/
def sampleTx : Transaction where
  ins := [⟨⟨1, 300⟩⟩, ⟨⟨2, 0⟩⟩]
  outs := [⟨30000, qntAsset, 5⟩, ⟨128, 7, 6⟩]
  ops := [.swap ⟨7, true, 200, 1⟩]
  witness := [.falcon (List.replicate falconPkBytes 0) [1, 2], .ref 0]

omit [Crypto] in
theorem encoding_canonical_sample :
    letI := flatCrypto
    Transaction.readFull (sampleTx.writeFull ++ [9]) = .ok (sampleTx, [9]) ∧
      sampleTx.txid = blake3Tagged .txid sampleTx.writeCore := by
  let _ := flatCrypto
  have hl : sampleTx.Limits :=
    { ins := by decide
      outs := by decide
      ops := by decide
      op := fun o ho => by
        rw [List.mem_singleton.mp ho]
        trivial
      extra := by decide
      witness := by decide
      signature := fun w hw => by
        rcases List.mem_cons.mp hw with rfl | hw
        · exact ⟨List.length_replicate, by decide⟩
        · rw [List.mem_singleton.mp hw]
          exact (by decide : (0 : UInt32).toNat ≤ maxTxInputs) }
  have h := encoding_canonical.1 sampleTx [9] hl
  have hcore := encoding_canonical.1 sampleTx [] hl
  have hid := encoding_canonical.2.2.2.2.2.2 sampleTx.writeCore sampleTx.writeCore sampleTx.core
  rw [List.append_nil] at hcore
  exact ⟨h.1, (hid.1 hcore.2.1 hcore.2.1).2⟩

end QuantCore
