import QuantCore.Util.U256

/-!
# 256-bit arithmetic is arithmetic

What the limbs compute, as numbers: `+=` and `mul64` are sum and product modulo
`2 ^ 256`, `-=` is the difference where there is one, and `/` is the quotient.
The long division works bit by bit, and is read through `testBit`; it shifts its
remainder left by one before it compares, and no bit of it is ever lost.
-/

namespace QuantCore.U256

theorem toNat_lt (a : U256) : a.toNat < 2 ^ 256 := by
  have h0 := a.w0.toNat_lt
  have h1 := a.w1.toNat_lt
  have h2 := a.w2.toNat_lt
  have h3 := a.w3.toNat_lt
  rw [toNat]
  omega

theorem isZero_iff {a : U256} : a.isZero = true ↔ a.toNat = 0 := by
  have hor : ∀ x y : UInt64, x ||| y = 0 ↔ x = 0 ∧ y = 0 := by
    intro x y
    rw [← UInt64.toNat_inj, ← UInt64.toNat_inj, ← UInt64.toNat_inj, UInt64.toNat_or]
    exact Nat.or_eq_zero_iff
  rw [isZero, beq_iff_eq, hor, hor, hor, toNat]
  simp only [← UInt64.toNat_inj]
  show ((a.w0.toNat = 0 ∧ a.w1.toNat = 0) ∧ a.w2.toNat = 0) ∧ a.w3.toNat = 0 ↔ _
  omega

/-! ## Sums and products -/

theorem addLimb_spec (c : Nat) (a b : UInt64) :
    (addLimb c a b).1.toNat + 2 ^ 64 * (addLimb c a b).2 = c + (a.toNat + b.toNat) := by
  simp only [addLimb, UInt64.toNat_ofNat', Nat.shiftRight_eq_div_pow]
  omega

theorem add_toNat (a b : U256) : (a.add b).toNat = (a.toNat + b.toNat) % 2 ^ 256 := by
  have h0 := addLimb_spec 0 a.w0 b.w0
  have h1 := addLimb_spec (addLimb 0 a.w0 b.w0).2 a.w1 b.w1
  have h2 := addLimb_spec (addLimb (addLimb 0 a.w0 b.w0).2 a.w1 b.w1).2 a.w2 b.w2
  have h3 := addLimb_spec (addLimb (addLimb (addLimb 0 a.w0 b.w0).2 a.w1 b.w1).2 a.w2 b.w2).2
    a.w3 b.w3
  have hlt := (a.add b).toNat_lt
  simp only [add, toNat] at hlt ⊢
  omega

theorem mulLimb_spec (c : Nat) (a m : UInt64) :
    (mulLimb c a m).1.toNat + 2 ^ 64 * (mulLimb c a m).2 = c + a.toNat * m.toNat := by
  simp only [mulLimb, UInt64.toNat_ofNat', Nat.shiftRight_eq_div_pow]
  omega

theorem mul64_toNat (a : U256) (m : UInt64) :
    (a.mul64 m).toNat = a.toNat * m.toNat % 2 ^ 256 := by
  have h0 := mulLimb_spec 0 a.w0 m
  have h1 := mulLimb_spec (mulLimb 0 a.w0 m).2 a.w1 m
  have h2 := mulLimb_spec (mulLimb (mulLimb 0 a.w0 m).2 a.w1 m).2 a.w2 m
  have h3 := mulLimb_spec (mulLimb (mulLimb (mulLimb 0 a.w0 m).2 a.w1 m).2 a.w2 m).2 a.w3 m
  have hlt := (a.mul64 m).toNat_lt
  have hexp : a.toNat * m.toNat = a.w0.toNat * m.toNat + 2 ^ 64 * (a.w1.toNat * m.toNat +
      2 ^ 64 * (a.w2.toNat * m.toNat + 2 ^ 64 * (a.w3.toNat * m.toNat))) := by
    rw [toNat]
    simp only [Nat.add_mul, Nat.mul_assoc]
  rw [hexp]
  simp only [mul64, toNat] at hlt ⊢
  omega

/-! ## Differences -/

theorem subLimb_spec {c a b : UInt64} (hc : c.toNat ≤ 1) :
    (subLimb c a b).1.toNat + b.toNat + c.toNat =
        a.toNat + 2 ^ 64 * (subLimb c a b).2.toNat ∧ (subLimb c a b).2.toNat ≤ 1 := by
  have ha := a.toNat_lt
  have hb := b.toNat_lt
  have h1 : (1 : UInt64).toNat = 1 := rfl
  have h0 : (0 : UInt64).toNat = 0 := rfl
  simp only [subLimb, UInt64.lt_iff_toNat_lt, UInt64.toNat_sub]
  split
  · rw [h1]
    omega
  · rw [h0]
    omega

theorem sub_toNat {a b : U256} (h : b.toNat ≤ a.toNat) :
    (a.sub b).toNat = a.toNat - b.toNat := by
  obtain ⟨h0, c0⟩ := subLimb_spec (c := 0) (a := a.w0) (b := b.w0) (Nat.zero_le 1)
  obtain ⟨h1, c1⟩ := subLimb_spec (a := a.w1) (b := b.w1) c0
  obtain ⟨h2, c2⟩ := subLimb_spec (a := a.w2) (b := b.w2) c1
  obtain ⟨h3, c3⟩ := subLimb_spec (a := a.w3) (b := b.w3) c2
  have hz : (0 : UInt64).toNat = 0 := rfl
  rw [hz] at h0
  have hlt := (a.sub b).toNat_lt
  simp only [sub, toNat] at h hlt ⊢
  omega

/-! ## Bits -/

theorem testBit_toNat (a : U256) (j : Nat) :
    a.toNat.testBit j = (a.limb (j / 64)).toNat.testBit (j % 64) := by
  have h0 := a.w0.toNat_lt
  have h1 := a.w1.toNat_lt
  have h2 := a.w2.toNat_lt
  have h3 := a.w3.toNat_lt
  have hsplit : ∀ (lo hi k : Nat), lo < 2 ^ 64 →
      (lo + 2 ^ 64 * hi).testBit k = if k < 64 then lo.testBit k else hi.testBit (k - 64) := by
    intro lo hi k hlo
    rw [Nat.add_comm, Nat.testBit_two_pow_mul_add hi hlo]
  rw [toNat, hsplit _ _ _ h0, hsplit _ _ _ h1, hsplit _ _ _ h2]
  by_cases k0 : j < 64
  · have hd : j / 64 = 0 := by omega
    have hm : j % 64 = j := by omega
    rw [if_pos k0, hd, hm]
    rfl
  rw [if_neg k0]
  by_cases k1 : j - 64 < 64
  · have hd : j / 64 = 1 := by omega
    have hm : j % 64 = j - 64 := by omega
    rw [if_pos k1, hd, hm]
    rfl
  rw [if_neg k1]
  by_cases k2 : j - 64 - 64 < 64
  · have hd : j / 64 = 2 := by omega
    have hm : j % 64 = j - 64 - 64 := by omega
    rw [if_pos k2, hd, hm]
    rfl
  rw [if_neg k2]
  by_cases k3 : j - 64 - 64 - 64 < 64
  · have hd : j / 64 = 3 := by omega
    have hm : j % 64 = j - 64 - 64 - 64 := by omega
    rw [hd, hm]
    rfl
  · have hbig : a.w3.toNat.testBit (j - 64 - 64 - 64) = false :=
      Nat.testBit_lt_two_pow (Nat.lt_of_lt_of_le h3 (Nat.pow_le_pow_right (by decide) (by omega)))
    obtain ⟨k, hk⟩ : ∃ k, j / 64 = k + 4 := ⟨j / 64 - 4, by omega⟩
    rw [hbig, hk]
    exact (Nat.zero_testBit _).symm

theorem limb_ofLimbs (f : Nat → UInt64) {i : Nat} (hi : i < 4) : (ofLimbs f).limb i = f i := by
  match i, hi with
  | 0, _ => rfl
  | 1, _ => rfl
  | 2, _ => rfl
  | 3, _ => rfl

theorem ext_testBit {a : U256} {n : Nat} (hn : n < 2 ^ 256)
    (h : ∀ j < 256, a.toNat.testBit j = n.testBit j) : a.toNat = n := by
  apply Nat.eq_of_testBit_eq
  intro j
  by_cases hj : j < 256
  · exact h j hj
  · have hpow : (2 : Nat) ^ 256 ≤ 2 ^ j := Nat.pow_le_pow_right (by decide) (by omega)
    rw [Nat.testBit_lt_two_pow (Nat.lt_of_lt_of_le a.toNat_lt hpow),
      Nat.testBit_lt_two_pow (Nat.lt_of_lt_of_le hn hpow)]

theorem orLimb_toNat {a : U256} {i : Nat} (hi : i < 4) (x : UInt64) :
    (orLimb a i x).toNat = a.toNat ||| (x.toNat <<< (64 * i)) := by
  have hx := x.toNat_lt
  have hlt : x.toNat <<< (64 * i) < 2 ^ 256 := by
    rw [Nat.shiftLeft_eq]
    calc x.toNat * 2 ^ (64 * i) < 2 ^ 64 * 2 ^ (64 * i) :=
          Nat.mul_lt_mul_of_pos_right hx (Nat.two_pow_pos _)
      _ = 2 ^ (64 + 64 * i) := (Nat.pow_add ..).symm
      _ ≤ 2 ^ 256 := Nat.pow_le_pow_right (by decide) (by omega)
  refine ext_testBit (Nat.or_lt_two_pow a.toNat_lt hlt) fun j hj => ?_
  rw [testBit_toNat, orLimb, limb_ofLimbs _ (by omega), Nat.testBit_or, Nat.testBit_shiftLeft,
    testBit_toNat a j]
  by_cases hji : j / 64 = i
  · have hsub : j - 64 * i = j % 64 := by omega
    have hge : j ≥ 64 * i := by omega
    rw [if_pos hji, UInt64.toNat_or, Nat.testBit_or, hsub, decide_eq_true hge, Bool.true_and]
  · rw [if_neg hji]
    by_cases hge : j ≥ 64 * i
    · have hbig : x.toNat.testBit (j - 64 * i) = false :=
        Nat.testBit_lt_two_pow (Nat.lt_of_lt_of_le hx
          (Nat.pow_le_pow_right (by decide) (by omega)))
      rw [hbig, Bool.and_false, Bool.or_false]
    · rw [decide_eq_false hge, Bool.false_and, Bool.or_false]

theorem shl_one_toNat (a : U256) : (shl a 1).toNat = 2 * a.toNat % 2 ^ 256 := by
  refine ext_testBit (Nat.mod_lt _ (by decide)) fun j hj => ?_
  have hmul : 2 * a.toNat = a.toNat <<< 1 := by
    rw [Nat.shiftLeft_eq]
    omega
  rw [testBit_toNat, shl, if_neg (by decide), limb_ofLimbs _ (by omega), hmul,
    Nat.testBit_mod_two_pow, Nat.testBit_shiftLeft, testBit_toNat a (j - 1), decide_eq_true hj,
    Bool.true_and]
  simp only [show 1 / 64 = 0 from rfl, show 1 % 64 = 1 from rfl, Nat.not_lt_zero, if_false,
    Nat.sub_zero]
  have hs : ((UInt64.ofNat 1).toNat) % 64 = 1 := rfl
  have hr : ((UInt64.ofNat (64 - 1)).toNat) % 64 = 63 := rfl
  by_cases hlow : j % 64 = 0
  · by_cases hzero : j / 64 > 0
    · have hd : (j - 1) / 64 = j / 64 - 1 := by omega
      have hm : (j - 1) % 64 = 63 := by omega
      have hge : j ≥ 1 := by omega
      rw [if_pos ⟨by decide, hzero⟩, UInt64.toNat_or, Nat.testBit_or, UInt64.toNat_shiftLeft,
        UInt64.toNat_shiftRight, hs, hr, hlow, hd, hm, Nat.testBit_mod_two_pow,
        Nat.testBit_shiftLeft, Nat.testBit_shiftRight, decide_eq_true hge]
      simp
    · have hj0 : j = 0 := by omega
      rw [if_neg (fun h => hzero h.2), UInt64.toNat_shiftLeft, hs, hlow,
        Nat.testBit_mod_two_pow, Nat.testBit_shiftLeft, hj0]
      simp
  · have hd : (j - 1) / 64 = j / 64 := by omega
    have hm : (j - 1) % 64 = j % 64 - 1 := by omega
    have hge : j ≥ 1 := by omega
    have hge' : j % 64 ≥ 1 := by omega
    have hlt : j % 64 < 64 := Nat.mod_lt _ (by decide)
    have hshift : (a.limb (j / 64) <<< UInt64.ofNat 1).toNat.testBit (j % 64) =
        (a.limb (j / 64)).toNat.testBit (j % 64 - 1) := by
      rw [UInt64.toNat_shiftLeft, hs, Nat.testBit_mod_two_pow, Nat.testBit_shiftLeft,
        decide_eq_true hlt, decide_eq_true hge', Bool.true_and, Bool.true_and]
    rw [hd, hm, decide_eq_true hge, Bool.true_and]
    split
    · have hbig : (a.limb (j / 64 - 1) >>> UInt64.ofNat (64 - 1)).toNat.testBit (j % 64) =
          false := by
        rw [UInt64.toNat_shiftRight, hr, Nat.testBit_shiftRight]
        exact Nat.testBit_lt_two_pow (Nat.lt_of_lt_of_le (a.limb (j / 64 - 1)).toNat_lt
          (Nat.pow_le_pow_right (by decide) (by omega)))
      rw [UInt64.toNat_or, Nat.testBit_or, hshift, hbig, Bool.or_false]
    · exact hshift

/-! ## Division -/

/-- One bit of the dividend. -/
theorem bit_toNat (a : U256) (i : Nat) :
    ((a.limb (i / 64) >>> UInt64.ofNat (i % 64)) &&& 1).toNat = a.toNat / 2 ^ i % 2 := by
  have hs : ((UInt64.ofNat (i % 64)).toNat) % 64 = i % 64 := by
    rw [UInt64.toNat_ofNat']
    omega
  have hone : (1 : UInt64).toNat = 2 ^ 1 - 1 := rfl
  have hbit : ∀ n k : Nat, n / 2 ^ k % 2 = (n.testBit k).toNat := by
    intro n k
    rw [Nat.testBit_eq_decide_div_mod_eq]
    rcases Nat.mod_two_eq_zero_or_one (n / 2 ^ k) with h | h <;> rw [h] <;> rfl
  rw [UInt64.toNat_and, UInt64.toNat_shiftRight, hs, hone, Nat.and_two_pow_sub_one_eq_mod,
    Nat.shiftRight_eq_div_pow, Nat.pow_one, hbit, hbit, testBit_toNat]

/-- Setting a bit below the ones that are set. -/
theorem setBit_toNat {q : U256} {i : Nat} (hi : i < 256) {m : Nat}
    (hq : q.toNat = 2 ^ (i + 1) * m) :
    (orLimb q (i / 64) (1 <<< UInt64.ofNat (i % 64))).toNat = q.toNat + 2 ^ i := by
  have hs : ((UInt64.ofNat (i % 64)).toNat) % 64 = i % 64 := by
    rw [UInt64.toNat_ofNat']
    omega
  have hone : ((1 : UInt64) <<< UInt64.ofNat (i % 64)).toNat = 2 ^ (i % 64) := by
    have hlt : 2 ^ (i % 64) < 2 ^ 64 := Nat.pow_lt_pow_right (by decide) (by omega)
    rw [UInt64.toNat_shiftLeft, hs, Nat.shiftLeft_eq]
    show 1 * 2 ^ (i % 64) % 2 ^ 64 = _
    rw [Nat.one_mul, Nat.mod_eq_of_lt hlt]
  have hpow : 2 ^ (i % 64) <<< (64 * (i / 64)) = 2 ^ i := by
    rw [Nat.shiftLeft_eq, ← Nat.pow_add]
    congr 1
    omega
  have hlt : 2 ^ i < 2 ^ (i + 1) := Nat.pow_lt_pow_right (by decide) (by omega)
  rw [orLimb_toNat (by omega), hone, hpow, hq, Nat.two_pow_add_eq_or_of_lt hlt]

theorem ge_iff {a b : U256} : a.ge b = true ↔ b.toNat ≤ a.toNat := by
  rw [ge, cmp_eq_compare, bne_iff_ne, ne_eq, Nat.compare_eq_lt, Nat.not_lt]

/-- The remainder of the bits seen so far is part of the dividend's half, and so
shifting it loses no bit. -/
theorem shl_remainder {a r : U256} {i k : Nat} (h : a.toNat / 2 ^ (i + 1) = k + r.toNat) :
    (shl r 1).toNat = 2 * r.toNat := by
  have hhalf : a.toNat / 2 ^ (i + 1) = a.toNat / 2 ^ i / 2 := by
    rw [Nat.pow_succ, Nat.div_div_eq_div_mul]
  have hle := Nat.div_le_self a.toNat (2 ^ i)
  have hlt := toNat_lt a
  rw [shl_one_toNat, Nat.mod_eq_of_lt (by omega)]

/-- The remainder with the next bit of the dividend appended. -/
def nextBit (a r : U256) (i : Nat) : U256 :=
  orLimb (shl r 1) 0 ((a.limb (i / 64) >>> UInt64.ofNat (i % 64)) &&& 1)

/-- One round: the quotient `m` of the bits seen so far takes another bit. -/
theorem nextBit_spec {a b r : U256} {i m : Nat} (hr : r.toNat < b.toNat)
    (hinv : a.toNat / 2 ^ (i + 1) = m * b.toNat + r.toNat) :
    ((nextBit a r i).ge b = true → ((nextBit a r i).sub b).toNat < b.toNat ∧
      a.toNat / 2 ^ i = (2 * m + 1) * b.toNat + ((nextBit a r i).sub b).toNat) ∧
    (¬ (nextBit a r i).ge b = true → (nextBit a r i).toNat < b.toNat ∧
      a.toNat / 2 ^ i = 2 * m * b.toNat + (nextBit a r i).toNat) := by
  have hbit := bit_toNat a i
  have hlow : a.toNat / 2 ^ i % 2 < 2 := Nat.mod_lt _ (by decide)
  have hstep : a.toNat / 2 ^ i =
      2 * m * b.toNat + (2 * r.toNat + a.toNat / 2 ^ i % 2) := by
    have hhalf : a.toNat / 2 ^ (i + 1) = a.toNat / 2 ^ i / 2 := by
      rw [Nat.pow_succ, Nat.div_div_eq_div_mul]
    rw [hhalf] at hinv
    have hassoc : 2 * m * b.toNat = 2 * (m * b.toNat) := Nat.mul_assoc ..
    omega
  have hr' : (nextBit a r i).toNat = 2 * r.toNat + a.toNat / 2 ^ i % 2 := by
    have hor := Nat.two_pow_add_eq_or_of_lt (i := 1) hlow r.toNat
    rw [Nat.pow_one] at hor
    rw [nextBit, orLimb_toNat (by decide), hbit, shl_remainder hinv, Nat.mul_zero,
      Nat.shiftLeft_zero, ← hor]
  rw [ge_iff, hr']
  constructor
  · intro hge
    have hsub : ((nextBit a r i).sub b).toNat =
        2 * r.toNat + a.toNat / 2 ^ i % 2 - b.toNat := by
      rw [sub_toNat (by rw [hr']; exact hge), hr']
    rw [hsub]
    refine ⟨by omega, ?_⟩
    rw [hstep, Nat.add_mul, Nat.one_mul]
    omega
  · intro hlt
    exact ⟨Nat.lt_of_not_le hlt, hstep⟩

/-- The loop divides the bits it has seen: `q` holds the quotient and `r` the
remainder of the number they make. -/
theorem divLoop_toNat {a b : U256} (hb : 0 < b.toNat) {i : Nat}
    (hi : i ≤ 256) {q r : U256} {m : Nat} (hq : q.toNat = 2 ^ i * m) (hr : r.toNat < b.toNat)
    (hinv : a.toNat / 2 ^ i = m * b.toNat + r.toNat) :
    (divLoop a b i q r).toNat = a.toNat / b.toNat := by
  induction i generalizing q r m with
  | zero =>
      rw [Nat.pow_zero, Nat.div_one] at hinv
      rw [Nat.pow_zero, Nat.one_mul] at hq
      rw [divLoop, hq, hinv, Nat.add_comm, Nat.add_mul_div_right _ _ hb,
        Nat.div_eq_of_lt hr, Nat.zero_add]
  | succ i ih =>
      obtain ⟨htake, hleave⟩ := nextBit_spec hr hinv
      have hq' : q.toNat = 2 ^ i * (2 * m) := by
        rw [hq, Nat.pow_succ, Nat.mul_assoc]
      rw [divLoop]
      split
      · next hge =>
          obtain ⟨hlt, hdiv⟩ := htake hge
          refine ih (m := 2 * m + 1) (by omega) ?_ hlt hdiv
          rw [setBit_toNat (by omega) hq, hq', Nat.mul_add, Nat.mul_one]
      · next hge =>
          obtain ⟨hlt, hdiv⟩ := hleave hge
          exact ih (m := 2 * m) (by omega) hq' hlt hdiv

theorem bits_spec (a : U256) : a.bits ≤ 256 ∧ a.toNat < 2 ^ a.bits := by
  have hlog : ∀ w : UInt64, w.toNat < 2 ^ (Nat.log2 w.toNat + 1) := fun w => Nat.lt_log2_self
  have hle : ∀ w : UInt64, w ≠ 0 → Nat.log2 w.toNat < 64 := by
    intro w hw
    have hne : w.toNat ≠ 0 := fun h => hw (UInt64.toNat.inj h)
    exact (Nat.log2_lt hne).mpr w.toNat_lt
  have h0 := a.w0.toNat_lt
  have h1 := a.w1.toNat_lt
  have h2 := a.w2.toNat_lt
  have hz : (0 : UInt64).toNat = 0 := rfl
  rw [bits]
  split
  · next h =>
      have h' := hle a.w3 h
      have hl := hlog a.w3
      refine ⟨by omega, ?_⟩
      rw [Nat.pow_add, toNat]
      show _ < 2 ^ 192 * _
      omega
  next h3 =>
  have h3' := congrArg UInt64.toNat (not_not.mp h3)
  rw [hz] at h3'
  split
  · next h =>
      have h' := hle a.w2 h
      have hl := hlog a.w2
      refine ⟨by omega, ?_⟩
      rw [Nat.pow_add, toNat]
      show _ < 2 ^ 128 * _
      omega
  next h2' =>
  have h2'' := congrArg UInt64.toNat (not_not.mp h2')
  rw [hz] at h2''
  split
  · next h =>
      have h' := hle a.w1 h
      have hl := hlog a.w1
      refine ⟨by omega, ?_⟩
      rw [Nat.pow_add, toNat]
      show _ < 2 ^ 64 * _
      omega
  next h1' =>
  have h1'' := congrArg UInt64.toNat (not_not.mp h1')
  rw [hz] at h1''
  split
  · next h =>
      have h' := hle a.w0 h
      have hl := hlog a.w0
      refine ⟨by omega, ?_⟩
      rw [toNat]
      omega
  next h0' =>
  have h0'' := congrArg UInt64.toNat (not_not.mp h0')
  rw [hz] at h0''
  refine ⟨Nat.zero_le _, ?_⟩
  rw [toNat]
  omega

theorem div_toNat {a b : U256} (hb : 0 < b.toNat) :
    (a.div b).toNat = a.toNat / b.toNat := by
  have hnz : ¬ b.isZero = true := fun h => by
    have := isZero_iff.mp h
    omega
  obtain ⟨hle, hlt⟩ := bits_spec a
  rw [div, if_neg hnz]
  have hzero : (({} : U256)).toNat = 0 := rfl
  refine divLoop_toNat hb hle (m := 0) ?_ ?_ ?_
  · rw [hzero, Nat.mul_zero]
  · rw [hzero]
    exact hb
  · rw [hzero, Nat.div_eq_of_lt hlt, Nat.zero_mul]

theorem ofNat_toNat (a : U256) : ofNat a.toNat = a := by
  have h0 := a.w0.toNat_lt
  have h1 := a.w1.toNat_lt
  have h2 := a.w2.toNat_lt
  have hlimb : ∀ (w : UInt64) (n : Nat), n % 2 ^ 64 = w.toNat → UInt64.ofNat n = w := by
    intro w n h
    refine UInt64.toNat.inj ?_
    rw [UInt64.toNat_ofNat', h]
  rw [ofNat]
  simp only [Nat.shiftRight_eq_div_pow, toNat]
  rw [hlimb a.w0 _ (by omega), hlimb a.w1 _ (by omega), hlimb a.w2 _ (by omega),
    hlimb a.w3 _ (by have := a.w3.toNat_lt; omega)]

/-- The quotient by one division of numbers. -/
def quotient (a b : U256) : U256 := if b.isZero then {} else ofNat (a.toNat / b.toNat)

theorem div_eq_quotient (a b : U256) : a.div b = quotient a b := by
  rw [quotient]
  split
  · next h => rw [div, if_pos h]
  · next h =>
      have hb : 0 < b.toNat := Nat.pos_of_ne_zero fun h' => h (isZero_iff.mpr h')
      rw [← div_toNat hb, ofNat_toNat]

end QuantCore.U256
