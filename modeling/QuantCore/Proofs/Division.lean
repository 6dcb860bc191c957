import QuantCore.Proofs.Compact

/-!
# Division and work are exact

The long division finds the floor of the quotient, and its remainder never
outgrows the limbs, however large the divisor is: what is shifted is no more than
half of the bits of the dividend that have been seen. So the work of a target is
the number of hashes it takes on average, rounded down.
-/

namespace QuantCore.U256

/-- The remainders that the long division shifts. -/
def divRemainders (a b : U256) : Nat → U256 → List U256
  | 0, _ => []
  | i + 1, r =>
      let r' := nextBit a r i
      r :: divRemainders a b i (if r'.ge b then r'.sub b else r')

theorem shl_divRemainders {a b : U256} {i m : Nat} {r : U256} (hr : r.toNat < b.toNat)
    (hinv : a.toNat / 2 ^ i = m * b.toNat + r.toNat) :
    ∀ x ∈ divRemainders a b i r, (shl x 1).toNat = 2 * x.toNat := by
  induction i generalizing r m with
  | zero => exact fun x hx => absurd hx List.not_mem_nil
  | succ i ih =>
      obtain ⟨htake, hleave⟩ := nextBit_spec hr hinv
      rw [divRemainders, List.forall_mem_cons]
      refine ⟨shl_remainder hinv, ?_⟩
      split
      · next hge =>
          obtain ⟨hlt, hdiv⟩ := htake hge
          exact ih hlt hdiv
      · next hge =>
          obtain ⟨hlt, hdiv⟩ := hleave hge
          exact ih hlt hdiv

theorem compl_toNat (a : U256) : (compl a).toNat = 2 ^ 256 - 1 - a.toNat := by
  have hnot : ∀ w : UInt64, (~~~ w).toNat = 2 ^ 64 - 1 - w.toNat := fun w => UInt64.toNat_not w
  have h0 := a.w0.toNat_lt
  have h1 := a.w1.toNat_lt
  have h2 := a.w2.toNat_lt
  have h3 := a.w3.toNat_lt
  rw [toNat, toNat, compl, hnot, hnot, hnot, hnot]
  omega

/-- The quotient of `2 ^ 256`, which itself has no limbs, by the target and one. -/
theorem workFromTarget_toNat {t : U256} (h : 0 < t.toNat) :
    (workFromTarget t).toNat = 2 ^ 256 / (t.toNat + 1) := by
  have hone : (ofU64 1).toNat = 1 := rfl
  have hlt := toNat_lt t
  rw [workFromTarget, add_toNat, hone]
  by_cases htop : t.toNat + 1 = 2 ^ 256
  · -- The divisor wraps to zero, and the quotient by it is zero.
    have hzero : (t.add (ofU64 1)).isZero = true := by
      rw [isZero_iff, add_toNat, hone, htop, Nat.mod_self]
    rw [div, if_pos hzero, htop]
    rfl
  · have hsum : (t.add (ofU64 1)).toNat = t.toNat + 1 := by
      rw [add_toNat, hone, Nat.mod_eq_of_lt (by omega)]
    have hquot : (2 ^ 256 - 1 - t.toNat) / (t.toNat + 1) + 1 = 2 ^ 256 / (t.toNat + 1) := by
      have hwhole : 2 ^ 256 = 2 ^ 256 - 1 - t.toNat + (t.toNat + 1) := by omega
      rw [hwhole, Nat.add_div_right _ (Nat.succ_pos _), ← hwhole]
    rw [div_toNat (by rw [hsum]; exact Nat.succ_pos _), compl_toNat, hsum, hquot]
    refine Nat.mod_eq_of_lt ?_
    exact Nat.div_lt_self (Nat.two_pow_pos 256) (by omega)

/-- Division, by a number and by a limb, multiplication by a limb, and work. -/
theorem division_exact (a b : U256) (d : UInt64) :
    (b.isZero = false → (a.div b).toNat = a.toNat / b.toNat ∧
      ∀ r ∈ divRemainders a b a.bits {}, (shl r 1).toNat = 2 * r.toNat) ∧
    (d ≠ 0 → (a.div64 d).toNat = a.toNat / d.toNat ∧
      (a.mul64 d).toNat = a.toNat * d.toNat % 2 ^ 256) ∧
    (a.isZero = false → (workFromTarget a).toNat = 2 ^ 256 / (a.toNat + 1) ∧
      (a.le b = true → (workFromTarget b).le (workFromTarget a) = true)) := by
  have hpos : ∀ {x : U256}, x.isZero = false → 0 < x.toNat := by
    intro x hx
    refine Nat.pos_of_ne_zero fun hz => ?_
    rw [isZero_iff.mpr hz] at hx
    cases hx
  refine ⟨fun hb => ⟨div_toNat (hpos hb), ?_⟩, fun hd => ⟨div64_toNat ?_, mul64_toNat a d⟩,
    fun ha => ⟨workFromTarget_toNat (hpos ha), fun hab => ?_⟩⟩
  · refine shl_divRemainders (m := 0) (hpos hb) ?_
    rw [Nat.div_eq_of_lt (bits_spec a).2, Nat.zero_mul]
    rfl
  · exact Nat.pos_of_ne_zero fun hz => hd (UInt64.toNat.inj hz)
  · rw [le_iff] at hab ⊢
    have ha' := hpos ha
    rw [workFromTarget_toNat ha', workFromTarget_toNat (Nat.lt_of_lt_of_le ha' hab)]
    exact Nat.div_le_div_left (by omega) (Nat.succ_pos _)

/-- The largest dividend, by one more than half of what the limbs hold. -/
theorem division_exact_top :
    let a : U256 := ⟨0xffffffffffffffff, 0xffffffffffffffff, 0xffffffffffffffff, 0xffffffffffffffff⟩
    let b : U256 := ⟨1, 0, 0, 0x8000000000000000⟩
    b.isZero = false ∧ (a.div b).toNat = a.toNat / b.toNat :=
  ⟨rfl, ((division_exact _ _ 1).1 rfl).1⟩

end QuantCore.U256
