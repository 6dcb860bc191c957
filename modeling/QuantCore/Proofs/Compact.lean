import QuantCore.Lib.Leading
import QuantCore.Proofs.Arith
import Mathlib.Data.Nat.Bitwise

/-!
# Shifts and the compact form of a target

`to_compact` keeps three leading bytes of a number, two when the top bit of the
third is set, and `from_compact` puts them back in place: what comes back is the
number with its low bytes cleared, without either flag.
-/

namespace QuantCore.U256

theorem ofU64_toNat (v : UInt64) : (ofU64 v).toNat = v.toNat := by
  rw [toNat, ofU64]
  simp

/-! ## Shifts -/

theorem limb_high {a : U256} {i : Nat} (h : 4 ≤ i) : a.limb i = 0 := by
  obtain ⟨k, rfl⟩ := Nat.exists_eq_add_of_le h
  rw [Nat.add_comm]
  rfl

theorem testBit_limb_high (x : UInt64) {k : Nat} (h : 64 ≤ k) : x.toNat.testBit k = false :=
  Nat.testBit_lt_two_pow (Nat.lt_of_lt_of_le x.toNat_lt (Nat.pow_le_pow_right (by decide) h))

theorem toNat_ofNat_mod {n : Nat} (h : n < 64) : (UInt64.ofNat n).toNat % 64 = n := by
  rw [UInt64.toNat_ofNat']
  omega

theorem testBit_shiftRight (x : UInt64) {n : Nat} (h : n < 64) (k : Nat) :
    (x >>> UInt64.ofNat n).toNat.testBit k = x.toNat.testBit (n + k) := by
  rw [UInt64.toNat_shiftRight, toNat_ofNat_mod h, Nat.testBit_shiftRight]

theorem testBit_shiftLeft (x : UInt64) {n : Nat} (h : n < 64) {k : Nat} (hk : k < 64) :
    (x <<< UInt64.ofNat n).toNat.testBit k = (decide (n ≤ k) && x.toNat.testBit (k - n)) := by
  rw [UInt64.toNat_shiftLeft, toNat_ofNat_mod h, Nat.testBit_mod_two_pow, Nat.testBit_shiftLeft,
    decide_eq_true hk, Bool.true_and]

theorem shr_toNat (a : U256) {s : Nat} (hs : s < 256) : (shr a s).toNat = a.toNat / 2 ^ s := by
  have hlt : a.toNat / 2 ^ s < 2 ^ 256 := Nat.lt_of_le_of_lt (Nat.div_le_self ..) a.toNat_lt
  refine ext_testBit hlt fun j hj => ?_
  rw [testBit_toNat, shr, if_neg (by omega), limb_ofLimbs _ (by omega), Nat.testBit_div_two_pow,
    testBit_toNat a]
  by_cases hout : j / 64 + s / 64 > 3
  · have hhigh : a.limb ((j + s) / 64) = 0 := limb_high (by omega)
    rw [if_pos hout, hhigh, UInt64.toNat_zero, Nat.zero_testBit, Nat.zero_testBit]
  rw [if_neg hout]
  by_cases hin : j % 64 + s % 64 < 64
  · -- The bit comes from the limb `s / 64` further up.
    have hd : (j + s) / 64 = j / 64 + s / 64 := by omega
    have hm : (j + s) % 64 = s % 64 + j % 64 := by omega
    rw [hd, hm]
    split
    · next hb =>
        rw [UInt64.toNat_or, Nat.testBit_or, testBit_shiftRight _ (by omega),
          testBit_shiftLeft _ (by omega) (by omega), decide_eq_false (by omega), Bool.false_and,
          Bool.or_false]
    · exact testBit_shiftRight _ (by omega) _
  · -- It comes from the limb above that one.
    have hd : (j + s) / 64 = j / 64 + s / 64 + 1 := by omega
    have hm : (j + s) % 64 = j % 64 - (64 - s % 64) := by omega
    have hlow : (a.limb (j / 64 + s / 64) >>> UInt64.ofNat (s % 64)).toNat.testBit (j % 64) =
        false := by
      rw [testBit_shiftRight _ (by omega)]
      exact testBit_limb_high _ (by omega)
    rw [hd, hm]
    split
    · next hb =>
        rw [UInt64.toNat_or, Nat.testBit_or, hlow, testBit_shiftLeft _ (by omega) (by omega),
          decide_eq_true (by omega), Bool.true_and, Bool.false_or]
    · next hb =>
        have hhigh : a.limb (j / 64 + s / 64 + 1) = 0 := limb_high (by omega)
        rw [hlow, hhigh, UInt64.toNat_zero, Nat.zero_testBit]

theorem shl_toNat (a : U256) {s : Nat} (hs : s < 256) :
    (shl a s).toNat = a.toNat * 2 ^ s % 2 ^ 256 := by
  refine ext_testBit (Nat.mod_lt _ (by decide)) fun j hj => ?_
  rw [testBit_toNat, shl, if_neg (by omega), limb_ofLimbs _ (by omega),
    Nat.testBit_mod_two_pow, decide_eq_true hj, Bool.true_and, ← Nat.shiftLeft_eq,
    Nat.testBit_shiftLeft, testBit_toNat a]
  by_cases hbelow : j / 64 < s / 64
  · rw [if_pos hbelow, UInt64.toNat_zero, Nat.zero_testBit, decide_eq_false (by omega),
      Bool.false_and]
  rw [if_neg hbelow]
  dsimp only
  by_cases hin : s % 64 ≤ j % 64
  · -- The bit comes from the limb `s / 64` further down.
    have hd : (j - s) / 64 = j / 64 - s / 64 := by omega
    have hm : (j - s) % 64 = j % 64 - s % 64 := by omega
    rw [hd, hm, decide_eq_true (show j ≥ s by omega), Bool.true_and]
    have hhi : (a.limb (j / 64 - s / 64) <<< UInt64.ofNat (s % 64)).toNat.testBit (j % 64) =
        (a.limb (j / 64 - s / 64)).toNat.testBit (j % 64 - s % 64) := by
      rw [testBit_shiftLeft _ (by omega) (by omega), decide_eq_true hin, Bool.true_and]
    split
    · next hb =>
        have hlow : (a.limb (j / 64 - s / 64 - 1) >>> UInt64.ofNat (64 - s % 64)).toNat.testBit
            (j % 64) = false := by
          rw [testBit_shiftRight _ (by omega)]
          exact testBit_limb_high _ (by omega)
        rw [UInt64.toNat_or, Nat.testBit_or, hhi, hlow, Bool.or_false]
    · exact hhi
  · -- It comes from the limb below that one, or is a zero shifted in.
    have hhi : (a.limb (j / 64 - s / 64) <<< UInt64.ofNat (s % 64)).toNat.testBit (j % 64) =
        false := by
      rw [testBit_shiftLeft _ (by omega) (by omega), decide_eq_false hin, Bool.false_and]
    split
    · next hb =>
        have hd : (j - s) / 64 = j / 64 - s / 64 - 1 := by omega
        have hm : (j - s) % 64 = 64 - s % 64 + j % 64 := by omega
        rw [UInt64.toNat_or, Nat.testBit_or, hhi, testBit_shiftRight _ (by omega), hd, hm,
          decide_eq_true (show j ≥ s by omega), Bool.true_and, Bool.false_or]
    · next hb =>
        rw [hhi, decide_eq_false (by omega), Bool.false_and]

theorem bits_eq_size (a : U256) : a.bits = a.toNat.size := by
  have hle : a.toNat.size ≤ a.bits := Nat.size_le.mpr (bits_spec a).2
  refine Nat.le_antisymm ?_ hle
  have hlow : ∀ (w : UInt64) (k : Nat), w ≠ 0 → 2 ^ k * w.toNat ≤ a.toNat →
      k + (Nat.log2 w.toNat + 1) ≤ a.toNat.size := by
    intro w k hw hk
    have hne : w.toNat ≠ 0 := fun h => hw (UInt64.toNat_inj.mp h)
    have hpow : 2 ^ (k + Nat.log2 w.toNat) ≤ a.toNat := by
      rw [Nat.pow_add]
      exact Nat.le_trans (Nat.mul_le_mul_left _ (Nat.log2_self_le hne)) hk
    exact Nat.lt_size.mpr hpow
  rw [bits]
  split
  · next h => exact hlow a.w3 192 h (by rw [toNat]; omega)
  split
  · next h => exact hlow a.w2 128 h (by rw [toNat]; omega)
  split
  · next h => exact hlow a.w1 64 h (by rw [toNat]; omega)
  split
  · next h =>
      have hs := hlow a.w0 0 h (by rw [toNat]; omega)
      omega
  · exact Nat.zero_le _

/-! ## Division by one limb -/

theorem divLimb_spec {rem : Nat} {a d : UInt64} (h : rem < d.toNat) :
    (divLimb rem a d).1.toNat * d.toNat + (divLimb rem a d).2 = rem * 2 ^ 64 + a.toNat ∧
      (divLimb rem a d).2 < d.toNat := by
  have ha := a.toNat_lt
  have hd := d.toNat_lt
  have hcur : (rem <<< 64) ||| a.toNat = rem * 2 ^ 64 + a.toNat := by
    rw [Nat.shiftLeft_eq, Nat.mul_comm, Nat.two_pow_add_eq_or_of_lt ha]
  have hpos : 0 < d.toNat := by omega
  rw [divLimb, hcur]
  refine ⟨?_, Nat.mod_lt _ hpos⟩
  -- The digit fits a limb because the remainder carried in is below the divisor.
  have hdigit : (rem * 2 ^ 64 + a.toNat) / d.toNat < 2 ^ 64 := by
    rw [Nat.div_lt_iff_lt_mul hpos]
    have hle : (rem + 1) * 2 ^ 64 ≤ d.toNat * 2 ^ 64 := Nat.mul_le_mul_right _ h
    have hcomm : d.toNat * 2 ^ 64 = 2 ^ 64 * d.toNat := Nat.mul_comm ..
    omega
  rw [UInt64.toNat_ofNat', Nat.mod_eq_of_lt hdigit, Nat.mul_comm]
  exact Nat.div_add_mod ..

theorem div64_toNat {a : U256} {d : UInt64} (h : 0 < d.toNat) :
    (a.div64 d).toNat = a.toNat / d.toNat := by
  obtain ⟨e3, r3⟩ := divLimb_spec (a := a.w3) h
  obtain ⟨e2, r2⟩ := divLimb_spec (a := a.w2) r3
  obtain ⟨e1, r1⟩ := divLimb_spec (a := a.w1) r2
  obtain ⟨e0, r0⟩ := divLimb_spec (a := a.w0) r1
  have hsum : (a.div64 d).toNat * d.toNat + (divLimb (divLimb (divLimb (divLimb 0 a.w3 d).2
      a.w2 d).2 a.w1 d).2 a.w0 d).2 = a.toNat := by
    rw [div64, toNat, toNat]
    simp only [Nat.add_mul, Nat.mul_assoc]
    omega
  refine (Nat.div_eq_of_lt_le ?_ ?_).symm
  · exact Nat.le.intro hsum
  · rw [Nat.add_mul, Nat.one_mul]
    omega

/-! ## Mantissa and exponent -/

/-- Three bytes of a number `e` bytes long. -/
def mantissa (n e : Nat) : Nat := if e ≤ 3 then n * 2 ^ (8 * (3 - e)) else n / 2 ^ (8 * (e - 3))

theorem mantissa_succ (n e : Nat) : mantissa n (e + 1) = mantissa n e / 2 ^ 8 := by
  rw [mantissa, mantissa]
  rcases Nat.lt_trichotomy e 3 with h | rfl | h
  · have hpow : 2 ^ (8 * (3 - e)) = 2 ^ (8 * (3 - (e + 1))) * 2 ^ 8 := by
      rw [← Nat.pow_add]
      congr 1
      omega
    rw [if_pos (by omega), if_pos (by omega), hpow, ← Nat.mul_assoc,
      Nat.mul_div_cancel _ (by decide)]
  · rw [if_neg (by omega), if_pos (by omega)]
    simp only [Nat.sub_self, Nat.mul_zero, Nat.pow_zero, Nat.mul_one, Nat.add_sub_cancel_left]
  · rw [if_neg (by omega), if_neg (by omega), Nat.div_div_eq_div_mul, ← Nat.pow_add]
    congr 2
    omega

theorem le_mantissa {n e k : Nat} (h : 24 ≤ 8 * e + k) :
    2 ^ k ≤ mantissa n e ↔ 2 ^ (8 * e + k - 24) ≤ n := by
  rw [mantissa]
  split
  · next he =>
      have hpow : 2 ^ k = 2 ^ (8 * e + k - 24) * 2 ^ (8 * (3 - e)) := by
        rw [← Nat.pow_add]
        congr 1
        omega
      rw [hpow]
      exact Nat.mul_le_mul_right_iff (Nat.two_pow_pos _)
  · next he =>
      rw [Nat.le_div_iff_mul_le (Nat.two_pow_pos _), ← Nat.pow_add]
      have hexp : k + 8 * (e - 3) = 8 * e + k - 24 := by omega
      rw [hexp]

/-- How many low bits the compact form of a number of `l` bits drops. -/
def dropBits (l : Nat) : Nat := 8 * (l / 8 - 2)

theorem dropBits_mono : Monotone dropBits := fun a b h => by
  rw [dropBits, dropBits]
  omega

theorem dropBits_lt {l : Nat} (h : 0 < l) : dropBits l < l := by
  rw [dropBits]
  omega

/-! ## The 32-bit form -/

theorem and_signBit (x : UInt32) :
    (x &&& 0x00800000 ≠ 0) ↔ x.toNat / 2 ^ 23 % 2 = 1 := by
  have hval : (0x00800000 : UInt32).toNat = 2 ^ 23 := rfl
  have hand : (x &&& 0x00800000).toNat = (x.toNat.testBit 23).toNat * 2 ^ 23 := by
    rw [UInt32.toNat_and, hval, Nat.and_two_pow]
  have hzero : (x &&& 0x00800000 = 0) ↔ (x &&& 0x00800000).toNat = 0 := by
    rw [← UInt32.toNat_inj]
    rfl
  rw [ne_eq, hzero, hand, Nat.testBit_eq_decide_div_mod_eq]
  by_cases h : x.toNat / 2 ^ 23 % 2 = 1
  · rw [decide_eq_true h, Bool.toNat_true]
    exact ⟨fun _ => h, fun _ => by decide⟩
  · rw [decide_eq_false h, Bool.toNat_false, Nat.zero_mul]
    exact ⟨fun hne => absurd rfl hne, fun hone => absurd hone h⟩

/-- Size and word of a compact number that was put together from a size byte
and a mantissa without the sign bit. -/
theorem fromCompact_pack {bits : UInt32} {size m : Nat} (hbits : bits.toNat = 2 ^ 24 * size + m)
    (hm : m < 2 ^ 23) :
    (bits >>> 24).toNat = size ∧ (bits &&& 0x007fffff).toNat = m ∧
      ¬ (bits &&& 0x00800000 ≠ 0) := by
  have hmask : (0x007fffff : UInt32).toNat = 2 ^ 23 - 1 := rfl
  have hshift : (24 : UInt32).toNat % 32 = 24 := rfl
  refine ⟨?_, ?_, ?_⟩
  · rw [UInt32.toNat_shiftRight, hshift, Nat.shiftRight_eq_div_pow, hbits]
    omega
  · rw [UInt32.toNat_and, hmask, Nat.and_two_pow_sub_one_eq_mod, hbits]
    omega
  · rw [and_signBit, hbits]
    omega

/-- Neither flag, and the mantissa moved to its place. -/
theorem fromCompact_eq {bits : UInt32} {size m : Nat} (hbits : bits.toNat = 2 ^ 24 * size + m)
    (hm : m < 2 ^ 23) (hsize : size ≤ 33) (htop : size = 33 → m < 2 ^ 16) :
    (fromCompact bits).1.toNat =
        (if size ≤ 3 then m / 2 ^ (8 * (3 - size)) else m * 2 ^ (8 * (size - 3))) ∧
      (fromCompact bits).2.1 = false ∧ (fromCompact bits).2.2 = false := by
  obtain ⟨hs, hw, hsign⟩ := fromCompact_pack hbits hm
  rw [fromCompact, hs]
  refine ⟨?_, ?_, ?_⟩
  · dsimp only
    split
    · next h3 =>
        have hk : (UInt32.ofNat (8 * (3 - size))).toNat % 32 = 8 * (3 - size) := by
          rw [UInt32.toNat_ofNat']
          omega
        rw [ofU64_toNat, UInt32.toNat_toUInt64, UInt32.toNat_shiftRight, hk, hw,
          Nat.shiftRight_eq_div_pow]
    · next h3 =>
        rw [shl_toNat _ (by omega), ofU64_toNat, UInt32.toNat_toUInt64, hw]
        refine Nat.mod_eq_of_lt ?_
        rcases Nat.lt_or_eq_of_le hsize with hlt | rfl
        · calc m * 2 ^ (8 * (size - 3)) < 2 ^ 23 * 2 ^ (8 * (size - 3)) :=
                Nat.mul_lt_mul_of_pos_right hm (Nat.two_pow_pos _)
            _ = 2 ^ (23 + 8 * (size - 3)) := (Nat.pow_add ..).symm
            _ ≤ 2 ^ 256 := Nat.pow_le_pow_right (by decide) (by omega)
        · calc m * 2 ^ (8 * (33 - 3)) < 2 ^ 16 * 2 ^ (8 * (33 - 3)) :=
                Nat.mul_lt_mul_of_pos_right (htop rfl) (Nat.two_pow_pos _)
            _ = 2 ^ 256 := by rw [← Nat.pow_add]
  · exact decide_eq_false fun h => hsign h.2
  · refine decide_eq_false ?_
    rintro ⟨-, h | ⟨-, h⟩ | ⟨h, h32⟩⟩
    · omega
    · omega
    · rw [if_neg (by omega), gt_iff_lt, UInt32.lt_iff_toNat_lt, hw] at h
      have hval : (0xffff : UInt32).toNat = 2 ^ 16 - 1 := rfl
      have := htop (by omega)
      omega

/-- The leading three bytes as the code takes them. -/
theorem leadingBytes_toNat (a : U256) :
    (if (a.bits + 7) / 8 ≤ 3 then
        (a.w0 <<< UInt64.ofNat (8 * (3 - (a.bits + 7) / 8))).toUInt32
      else (shr a (8 * ((a.bits + 7) / 8 - 3))).w0.toUInt32).toNat =
      mantissa a.toNat ((a.bits + 7) / 8) := by
  have hbits := bits_spec a
  have hsize : a.toNat < 2 ^ (8 * ((a.bits + 7) / 8)) :=
    Nat.lt_of_lt_of_le hbits.2 (Nat.pow_le_pow_right (by decide) (by omega))
  have hlow : ∀ b : U256, b.w0.toNat = b.toNat % 2 ^ 64 := by
    intro b
    have h0 := b.w0.toNat_lt
    rw [toNat]
    omega
  generalize hd : (a.bits + 7) / 8 = d at hsize
  have hd32 : d ≤ 32 := by omega
  have hlt : mantissa a.toNat d < 2 ^ 24 := by
    by_cases hzero : d = 0
    · rw [hzero, Nat.mul_zero, Nat.pow_zero, Nat.lt_one_iff] at hsize
      rw [hsize, mantissa, hzero]
      decide
    · refine Nat.lt_of_not_le fun hle => ?_
      rw [le_mantissa (by omega)] at hle
      have hexp : 8 * d + 24 - 24 = 8 * d := by omega
      rw [hexp] at hle
      omega
  rw [mantissa] at hlt ⊢
  split
  · next h3 =>
      rw [if_pos h3] at hlt
      have hk := toNat_ofNat_mod (n := 8 * (3 - d)) (by omega)
      have hle : a.toNat ≤ a.toNat * 2 ^ (8 * (3 - d)) :=
        Nat.le_mul_of_pos_right _ (Nat.two_pow_pos _)
      have hw : a.w0.toNat = a.toNat := by
        rw [hlow]
        omega
      rw [UInt64.toNat_toUInt32, UInt64.toNat_shiftLeft, hk, hw, Nat.shiftLeft_eq]
      omega
  · next h3 =>
      rw [if_neg h3] at hlt
      rw [UInt64.toNat_toUInt32, hlow, shr_toNat _ (by omega)]
      generalize a.toNat / 2 ^ (8 * (d - 3)) = q at hlt ⊢
      omega

/-- Exponent and mantissa of the compact form. -/
theorem toCompact_toNat {a : U256} (h : 0 < a.toNat) :
    (toCompact a).toNat =
        2 ^ 24 * (a.toNat.size / 8 + 1) + mantissa a.toNat (a.toNat.size / 8 + 1) ∧
      mantissa a.toNat (a.toNat.size / 8 + 1) < 2 ^ 23 := by
  have hlen := bits_eq_size a
  have h256 := (bits_spec a).1
  have hpos := Nat.size_pos.mpr h
  have hraw := leadingBytes_toNat a
  rw [toCompact]
  dsimp only
  generalize (if (a.bits + 7) / 8 ≤ 3 then
        (a.w0 <<< UInt64.ofNat (8 * (3 - (a.bits + 7) / 8))).toUInt32
      else (shr a (8 * ((a.bits + 7) / 8 - 3))).w0.toUInt32) = raw at hraw ⊢
  rw [hlen] at hraw h256 ⊢
  generalize hl : a.toNat.size = l at hraw h256 hpos ⊢
  -- The top bit of the third byte is the number's own top bit, if any.
  have htop : 2 ^ 23 ≤ raw.toNat ↔ l % 8 = 0 := by
    rw [hraw, le_mantissa (by omega)]
    have hexp : 8 * ((l + 7) / 8) + 23 - 24 = 8 * ((l + 7) / 8) - 1 := by omega
    rw [hexp, ← Nat.lt_size, hl]
    omega
  have hfull : raw.toNat < 2 ^ 24 := by
    refine Nat.lt_of_not_le fun hle => ?_
    rw [hraw, le_mantissa (by omega), ← Nat.lt_size, hl] at hle
    omega
  have hsign : (raw &&& 0x00800000 ≠ 0) ↔ l % 8 = 0 := by
    rw [and_signBit, ← htop]
    omega
  have hpack : ∀ (c : UInt32) (e : Nat), c.toNat < 2 ^ 23 → e ≤ 33 →
      (c ||| (UInt32.ofNat e <<< 24)).toNat = 2 ^ 24 * e + c.toNat := by
    intro c e hc he
    have hshift : (24 : UInt32).toNat % 32 = 24 := rfl
    rw [UInt32.toNat_or, UInt32.toNat_shiftLeft, hshift, UInt32.toNat_ofNat', Nat.or_comm,
      Nat.two_pow_add_eq_or_of_lt (Nat.lt_trans hc (by decide)), Nat.shiftLeft_eq]
    congr 1
    omega
  by_cases hl8 : l % 8 = 0
  · rw [if_pos (hsign.mpr hl8)]
    have hshift : (8 : UInt32).toNat % 32 = 8 := rfl
    have hc : (raw >>> 8).toNat = mantissa a.toNat (l / 8 + 1) := by
      have he : l / 8 + 1 = (l + 7) / 8 + 1 := by omega
      rw [UInt32.toNat_shiftRight, hshift, Nat.shiftRight_eq_div_pow, hraw, he, mantissa_succ]
    have hc23 : (raw >>> 8).toNat < 2 ^ 23 := by
      rw [UInt32.toNat_shiftRight, hshift, Nat.shiftRight_eq_div_pow]
      omega
    rw [hpack _ _ hc23 (by omega), hc]
    rw [hc] at hc23
    refine ⟨?_, hc23⟩
    have he : (l + 7) / 8 + 1 = l / 8 + 1 := by omega
    rw [he]
  · rw [if_neg fun hs => hl8 (hsign.mp hs)]
    have he : (l + 7) / 8 = l / 8 + 1 := by omega
    rw [he] at hraw ⊢
    have hc23 : raw.toNat < 2 ^ 23 := Nat.lt_of_not_le fun hle => hl8 (htop.mp hle)
    rw [hpack _ _ hc23 (by omega), hraw]
    rw [hraw] at hc23
    exact ⟨rfl, hc23⟩

/-- What is left of a target after the trip through its compact form. -/
theorem fromCompact_toCompact {a : U256} (h : 0 < a.toNat) :
    (fromCompact (toCompact a)).1.toNat = Leading.cut dropBits a.toNat ∧
      (fromCompact (toCompact a)).2.1 = false ∧ (fromCompact (toCompact a)).2.2 = false := by
  obtain ⟨hbits, hm⟩ := toCompact_toNat h
  have hsize : a.toNat.size ≤ 256 := by
    rw [← bits_eq_size]
    exact (bits_spec a).1
  have htop : a.toNat.size / 8 + 1 = 33 → mantissa a.toNat (a.toNat.size / 8 + 1) < 2 ^ 16 := by
    intro he
    refine Nat.lt_of_not_le fun hle => ?_
    rw [le_mantissa (by omega), he] at hle
    exact absurd (toNat_lt a) (Nat.not_lt.mpr hle)
  obtain ⟨hval, hneg, hovf⟩ := fromCompact_eq hbits hm (by omega) htop
  refine ⟨?_, hneg, hovf⟩
  rw [hval, Leading.cut, dropBits, mantissa]
  split
  · next h3 =>
      have hdrop : 8 * (a.toNat.size / 8 - 2) = 0 := by omega
      rw [hdrop, Nat.mul_div_cancel _ (Nat.two_pow_pos _), Nat.pow_zero, Nat.div_one,
        Nat.mul_one]
  · next h3 =>
      have hdrop : a.toNat.size / 8 + 1 - 3 = a.toNat.size / 8 - 2 := by omega
      rw [hdrop]

/-! ## Rounding -/

theorem eq_of_toNat_eq_zero {a : U256} (h : a.toNat = 0) : a = {} := by
  rw [← ofNat_toNat a, h]
  rfl

/-- What is left of any number, zero included. -/
theorem rounded_toNat (a : U256) :
    (fromCompact (toCompact a)).1.toNat = Leading.cut dropBits a.toNat ∧
      (fromCompact (toCompact a)).2.1 = false ∧ (fromCompact (toCompact a)).2.2 = false := by
  rcases Nat.eq_zero_or_pos a.toNat with hz | hpos
  · rw [eq_of_toNat_eq_zero hz]
    decide
  · exact fromCompact_toCompact hpos

/-- The compact form only looks at the bits it keeps. -/
theorem toCompact_rounded (a : U256) : toCompact (fromCompact (toCompact a)).1 = toCompact a := by
  rcases Nat.eq_zero_or_pos a.toNat with hz | hpos
  · rw [eq_of_toNat_eq_zero hz]
    decide
  · have hdrop : ∀ l, 0 < l → dropBits l < l := fun _ => dropBits_lt
    have hval := (fromCompact_toCompact hpos).1
    have hsize := Leading.cut_size hdrop a.toNat
    have hcut : 0 < (fromCompact (toCompact a)).1.toNat := by
      rw [hval]
      exact Leading.cut_pos hdrop hpos
    have hmantissa : mantissa (Leading.cut dropBits a.toNat) (a.toNat.size / 8 + 1) =
        mantissa a.toNat (a.toNat.size / 8 + 1) := by
      rw [mantissa, mantissa]
      split
      · next h3 =>
          have hnone : dropBits a.toNat.size = 0 := by
            rw [dropBits]
            omega
          rw [Leading.cut, hnone, Nat.pow_zero, Nat.div_one, Nat.mul_one]
      · next h3 =>
          have hexp : 8 * (a.toNat.size / 8 + 1 - 3) = dropBits a.toNat.size := by
            rw [dropBits]
            omega
          rw [hexp, Leading.cut, Nat.mul_div_cancel _ (Nat.two_pow_pos _)]
    refine UInt32.toNat.inj ?_
    rw [(toCompact_toNat hcut).1, (toCompact_toNat hpos).1, hval, hsize, hmantissa]

/-- The compact form rounds down, to at least fifteen leading bits, without a
flag, once and for all, and in order. -/
theorem compact_rounds_down (x : U256) :
    let r := fromCompact (toCompact x)
    r.1.le x = true ∧ (x.toNat - r.1.toNat) * 2 ^ 14 ≤ x.toNat ∧
      (x.isZero = false → r.1.isZero = false) ∧ r.2.1 = false ∧ r.2.2 = false ∧
      toCompact r.1 = toCompact x ∧
      ∀ y, x.le y = true → r.1.le (fromCompact (toCompact y)).1 = true := by
  obtain ⟨hval, hneg, hovf⟩ := rounded_toNat x
  have hdrop : ∀ l, 0 < l → dropBits l < l := fun _ => dropBits_lt
  refine ⟨?_, ?_, fun hx => ?_, hneg, hovf, toCompact_rounded x, fun y hxy => ?_⟩
  · rw [le_iff, hval]
    exact Leading.cut_le dropBits x.toNat
  · rw [hval]
    refine Leading.sub_cut_mul_le (fun l => ?_) x.toNat
    rw [dropBits]
    omega
  · rw [Bool.eq_false_iff, ne_eq, isZero_iff] at hx ⊢
    rw [hval]
    exact Nat.ne_of_gt (Leading.cut_pos hdrop (Nat.pos_of_ne_zero hx))
  · rw [le_iff] at hxy ⊢
    rw [hval, (rounded_toNat y).1]
    exact Leading.cut_mono dropBits_mono hdrop hxy

/-- A number of 200 bits keeps its first sixteen. -/
theorem compact_rounds_down_once :
    let x : U256 := ⟨7, 0, 0, 0xff⟩
    x.isZero = false ∧ (fromCompact (toCompact x)).1.isZero = false :=
  ⟨rfl, (compact_rounds_down _).2.2.1 rfl⟩

end QuantCore.U256
