import QuantCore.Util.Serialize

/-!
# The primitive readers undo the primitive writers

One `Decodes` fact for each writer method. The only loop is the varint's: the
reader has gathered the low seven bits of every group so far, the writer still
holds the rest, and the two together are the value. Both run out at the tenth
group, where a 64-bit value has one bit left.
-/

namespace QuantCore

open Codec

namespace ByteReader

theorem decodes_raw {k : Nat} {bs : Bytes} (h : bs.length = k) :
    Decodes (raw k) bs bs := by
  intro rest
  subst h
  rw [raw, if_neg (by rw [List.length_append]; omega), List.take_left,
    List.drop_left]

theorem decodes_u8 (v : UInt8) : Decodes u8 (Writer.u8 v) v := fun _ => rfl

theorem decodes_u32le (v : UInt32) : Decodes u32le (Writer.u32le v) v := by
  have hv : UInt32.ofNat (ofLeBytes (Writer.u32le v)) = v := by
    rw [Writer.u32le, ofLeBytes_leBytes]
    apply UInt32.toNat.inj
    have := v.toNat_lt
    simp only [UInt32.toNat_ofNat']
    omega
  have h := (decodes_raw (leBytes_length 4 v.toNat)).bind_pure
    (g := fun b => UInt32.ofNat (ofLeBytes b))
  rwa [← Writer.u32le, hv] at h

theorem decodes_u64le (v : UInt64) : Decodes u64le (Writer.u64le v) v := by
  have hv : UInt64.ofNat (ofLeBytes (Writer.u64le v)) = v := by
    rw [Writer.u64le, ofLeBytes_leBytes]
    apply UInt64.toNat.inj
    have := v.toNat_lt
    simp only [UInt64.toNat_ofNat']
    omega
  have h := (decodes_raw (leBytes_length 8 v.toNat)).bind_pure
    (g := fun b => UInt64.ofNat (ofLeBytes b))
  rwa [← Writer.u64le, hv] at h

theorem decodes_hash (h : Hash256) : Decodes hash (Writer.hash h) h := by
  have hd := (decodes_raw (Hash256.bytes_length h)).bind_pure
    (g := Hash256.ofBytes)
  rwa [Hash256.ofBytes_bytes] at hd

/-! ## Varints -/

theorem varintLoop_length_le (k : Nat) (v : UInt64) : (Writer.varintLoop k v).length ≤ k + 1 := by
  induction k generalizing v with
  | zero => exact Nat.le_refl 1
  | succ k ih =>
      rw [Writer.varintLoop]
      split
      · exact Nat.succ_le_succ (ih _)
      · exact Nat.succ_le_succ (Nat.zero_le _)

theorem size_length_le (n : Nat) : (Writer.size n).length ≤ 10 :=
  varintLoop_length_le 9 _

/-- The byte of a group that is not the last: the low seven bits, marked. -/
theorem group_toNat (v : UInt64) :
    (v ||| 0x80).toUInt8.toNat = v.toNat % 128 + 128 := by
  have hfin : ∀ m : Fin 256, m.val ||| 128 = m.val % 128 + 128 := by
    decide +kernel
  have h : v.toNat % 256 ||| 128 = v.toNat % 256 % 128 + 128 :=
    hfin ⟨v.toNat % 256, by omega⟩
  have hor : (v ||| 0x80).toUInt8.toNat = v.toNat % 2 ^ 8 ||| 128 % 2 ^ 8 := by
    rw [UInt64.toNat_toUInt8, UInt64.toNat_or, Nat.or_mod_two_pow]
    rfl
  rw [hor]
  simp only [Nat.reducePow, Nat.reduceMod]
  omega

theorem and_mask_toNat (c : UInt8) : (c &&& 0x7f).toNat = c.toNat % 128 := by
  rw [UInt8.toNat_and]
  exact Nat.and_two_pow_sub_one_eq_mod c.toNat 7

theorem and_mark_eq_zero_iff (c : UInt8) : c &&& 0x80 = 0 ↔ c.toNat < 128 := by
  have hfin : ∀ m : Fin 256, m.val &&& 128 = 0 ↔ m.val < 128 := by
    decide +kernel
  have h := hfin ⟨c.toNat, c.toNat_lt⟩
  rw [← h, ← UInt8.toNat_inj, UInt8.toNat_and]
  rfl

/-- Adding a group above the bits gathered so far. -/
theorem or_group_toNat {v x : UInt64} {i : Nat} (hi : i ≤ 9)
    (hv : v.toNat < 2 ^ (7 * i)) (hx : x.toNat * 2 ^ (7 * i) < 2 ^ 64) :
    (v ||| (x <<< UInt64.ofNat (7 * i))).toNat =
      v.toNat + x.toNat * 2 ^ (7 * i) := by
  have hs : (UInt64.ofNat (7 * i)).toNat % 64 = 7 * i := by
    rw [UInt64.toNat_ofNat']
    omega
  rw [UInt64.toNat_or, UInt64.toNat_shiftLeft, hs, Nat.shiftLeft_eq,
    Nat.mod_eq_of_lt hx, Nat.or_comm, Nat.mul_comm,
    ← Nat.two_pow_add_eq_or_of_lt hv, Nat.add_comm]

/-- One round of the reader's loop in front of the group `c`: the value ends
here, or the loop goes on with the bits added. -/
theorem decodes_varintLoop_group {k i : Nat} {acc r : UInt64} {c : UInt8}
    {bs : Bytes} (hover : i = 9 → c.toNat ≤ 1) (hzero : 0 < i → c ≠ 0)
    (h : Decodes
      (if c.toNat < 128 then
        pure (acc ||| ((c &&& 0x7f).toUInt64 <<< UInt64.ofNat (7 * i)))
      else varintLoop k (7 * (i + 1))
        (acc ||| ((c &&& 0x7f).toUInt64 <<< UInt64.ofNat (7 * i)))) bs r) :
    Decodes (varintLoop (k + 1) (7 * i) acc) (c :: bs) r := by
  rw [varintLoop]
  refine (decodes_u8 c).bind ?_
  have h63 : ¬ (7 * i = 63 ∧ c > 1) := by
    rintro ⟨hi, hgt⟩
    have hle := hover (by omega)
    have hgt' : (1 : UInt8).toNat < c.toNat := UInt8.lt_iff_toNat_lt.mp hgt
    simp only [UInt8.reduceToNat] at hgt'
    omega
  have h0 : ¬ (c = 0 ∧ 7 * i > 0) := by
    rintro ⟨hz, hi⟩
    exact hzero (by omega) hz
  rw [if_neg h63]
  by_cases hc : c.toNat < 128
  · rw [if_pos hc] at h
    simp only [if_pos ((and_mark_eq_zero_iff c).mpr hc), if_neg h0]
    exact h
  · rw [if_neg hc] at h
    simp only [if_neg (fun hz => hc ((and_mark_eq_zero_iff c).mp hz))]
    exact h

theorem decodes_varintLoop {k i : Nat} (hk : k + i = 9) :
    ∀ (v acc : UInt64), acc.toNat < 2 ^ (7 * i) →
      v.toNat * 2 ^ (7 * i) < 2 ^ 64 → (0 < i → v ≠ 0) →
      ∀ r : UInt64, r.toNat = acc.toNat + v.toNat * 2 ^ (7 * i) →
      Decodes (varintLoop (k + 1) (7 * i) acc) (Writer.varintLoop k v) r := by
  -- The last group, wherever the writer stops.
  have hlast : ∀ {k i : Nat}, k + i = 9 → ∀ (v acc : UInt64),
      acc.toNat < 2 ^ (7 * i) → v.toNat * 2 ^ (7 * i) < 2 ^ 64 →
      (0 < i → v ≠ 0) → v.toNat < 128 → ∀ r : UInt64,
      r.toNat = acc.toNat + v.toNat * 2 ^ (7 * i) →
      Decodes (varintLoop (k + 1) (7 * i) acc) [v.toUInt8] r := by
    intro k i hk v acc hacc hv hne h128 r hr
    have hc : v.toUInt8.toNat = v.toNat := by
      rw [UInt64.toNat_toUInt8]
      omega
    have hx : (v.toUInt8 &&& 0x7f).toUInt64.toNat = v.toNat := by
      rw [UInt8.toNat_toUInt64, and_mask_toNat, hc]
      omega
    refine decodes_varintLoop_group ?_ ?_ ?_
    · intro hi
      subst hi
      omega
    · intro hi hz
      refine hne hi (UInt64.toNat.inj ?_)
      rw [← hc, hz]
      rfl
    · rw [hc, if_pos h128]
      have hval : acc ||| ((v.toUInt8 &&& 0x7f).toUInt64 <<<
          UInt64.ofNat (7 * i)) = r := by
        apply UInt64.toNat.inj
        rw [or_group_toNat (by omega) hacc (by rw [hx]; exact hv), hx, hr]
      rw [hval]
      exact decodes_pure r
  induction k generalizing i with
  | zero =>
      intro v acc hacc hv hne r hr
      have hi : i = 9 := by omega
      subst hi
      exact hlast hk v acc hacc hv hne (by omega) r hr
  | succ k ih =>
      intro v acc hacc hv hne r hr
      rw [Writer.varintLoop]
      split
      · next hge =>
          have hge' : 128 ≤ v.toNat := UInt64.le_iff_toNat_le.mp hge
          have hx : (((v ||| 0x80).toUInt8 &&& 0x7f).toUInt64).toNat =
              v.toNat % 128 := by
            rw [UInt8.toNat_toUInt64, and_mask_toNat, group_toNat]
            omega
          have hpow : (2 : Nat) ^ (7 * (i + 1)) = 128 * 2 ^ (7 * i) := by
            rw [Nat.mul_add, Nat.pow_add]
            omega
          have hshift : (v >>> 7).toNat = v.toNat / 128 := by
            rw [UInt64.toNat_shiftRight]
            exact Nat.shiftRight_eq_div_pow v.toNat 7
          have hsplit : v.toNat * 2 ^ (7 * i) =
              v.toNat % 128 * 2 ^ (7 * i) + v.toNat / 128 * (128 * 2 ^ (7 * i)) := by
            rw [← Nat.mul_assoc, ← Nat.add_mul]
            congr 1
            omega
          have hlow : v.toNat % 128 * 2 ^ (7 * i) ≤ 127 * 2 ^ (7 * i) :=
            Nat.mul_le_mul_right _ (by omega)
          have hor := or_group_toNat (i := i) (by omega) hacc
            (x := ((v ||| 0x80).toUInt8 &&& 0x7f).toUInt64) (by
              rw [hx]
              omega)
          rw [hx] at hor
          refine decodes_varintLoop_group (by omega) ?_ ?_
          · intro _ hz
            have h := group_toNat v
            rw [hz] at h
            simp only [UInt8.reduceToNat] at h
            omega
          · rw [group_toNat, if_neg (by omega)]
            refine ih (by omega) (v >>> 7) _ ?_ ?_ ?_ r ?_
            · rw [hor, hpow]
              omega
            · rw [hshift, hpow]
              omega
            · intro _ hz
              rw [hz] at hshift
              simp only [UInt64.reduceToNat] at hshift
              omega
            · rw [hor, hshift, hpow, hr]
              omega
      · next hlt =>
          have hlt' : v.toNat < 128 := by
            rw [ge_iff_le, UInt64.le_iff_toNat_le] at hlt
            exact Nat.lt_of_not_le hlt
          exact hlast hk v acc hacc hv hne hlt' r hr

theorem decodes_varint (v : UInt64) :
    Decodes varint (Writer.varint v) v := by
  refine decodes_varintLoop (k := 9) (i := 0) rfl v 0 ?_ ?_ ?_ v ?_
  · exact Nat.one_pos
  · have := v.toNat_lt
    omega
  · omega
  · simp

theorem decodes_varintMax {v max : UInt64} (h : v.toNat ≤ max.toNat) :
    Decodes (varintMax max) (Writer.varint v) v := by
  have hgt : ¬ v > max := by
    rw [gt_iff_lt, UInt64.lt_iff_toNat_lt]
    omega
  have hlast : Decodes (if v > max then throw "value too large" else pure v :
      ByteReader UInt64) [] v := by
    rw [if_neg hgt]
    exact decodes_pure v
  have hv := (decodes_varint v).bind
    (f := fun v => if v > max then throw "value too large" else pure v) hlast
  rwa [List.append_nil] at hv

theorem size_toNat {n : Nat} {max : UInt64} (h : n ≤ max.toNat) :
    (UInt64.ofNat n).toNat = n := by
  have := max.toNat_lt
  rw [UInt64.toNat_ofNat', Nat.mod_eq_of_lt (by omega)]

/-- A container's size, read back as the number of its elements. -/
theorem decodes_size {n : Nat} {max : UInt64} (h : n ≤ max.toNat) :
    Decodes (varintMax max) (Writer.size n) (UInt64.ofNat n) :=
  decodes_varintMax (by rwa [size_toNat h])

theorem decodes_bytes {b : Bytes} {max : UInt64} (h : b.length ≤ max.toNat) :
    Decodes (bytes max) (Writer.bytes b) b :=
  (decodes_size h).bind (by
    rw [size_toNat h]
    exact decodes_raw rfl)

theorem decodes_str {s : Bytes} {max : UInt64} (h : s.length ≤ max.toNat) :
    Decodes (str max) (Writer.str s) s :=
  decodes_bytes h

end ByteReader

end QuantCore
