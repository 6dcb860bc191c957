import Mathlib.Algebra.Group.Nat.Defs
import Mathlib.Data.Nat.Size
import Mathlib.Order.Monotone.Defs
import Mathlib.Order.Nat

/-!
# Keeping the leading bits of a number

A number written with a short mantissa loses its low bits. How many go depends
only on the number's length, through a function `drop` that does not decrease
and never takes the leading bit. Such a rounding stays below the number, keeps
a positive number positive and keeps the order of any two numbers.
-/

namespace Leading

/-- The number with its `drop` low bits cleared. -/
def cut (drop : Nat → Nat) (n : Nat) : Nat := n / 2 ^ drop n.size * 2 ^ drop n.size

variable {drop : Nat → Nat}

theorem cut_le (drop : Nat → Nat) (n : Nat) : cut drop n ≤ n := Nat.div_mul_le_self ..

/-- A power of two with no bit among the dropped ones survives below `n`. -/
theorem le_cut {n k : Nat} (hk : 2 ^ k ≤ n) (hd : drop n.size ≤ k) : 2 ^ k ≤ cut drop n := by
  have hpow : 2 ^ k = 2 ^ (k - drop n.size) * 2 ^ drop n.size := by
    rw [← Nat.pow_add, Nat.sub_add_cancel hd]
  rw [hpow] at hk ⊢
  exact Nat.mul_le_mul_right _ ((Nat.le_div_iff_mul_le (Nat.two_pow_pos _)).mpr hk)

/-- The leading bit of a positive number. -/
theorem leading_le {n : Nat} (h : 0 < n) : 2 ^ (n.size - 1) ≤ n := by
  have hpos := Nat.size_pos.mpr h
  exact Nat.lt_size.mp (by omega)

theorem leading_le_cut (hdrop : ∀ l, 0 < l → drop l < l) {n : Nat} (h : 0 < n) :
    2 ^ (n.size - 1) ≤ cut drop n := by
  have hlt := hdrop n.size (Nat.size_pos.mpr h)
  exact le_cut (leading_le h) (by omega)

theorem cut_pos (hdrop : ∀ l, 0 < l → drop l < l) {n : Nat} (h : 0 < n) : 0 < cut drop n :=
  Nat.lt_of_lt_of_le (Nat.two_pow_pos _) (leading_le_cut hdrop h)

/-- Numbers that lose equally many bits are cut at the same places; one that
loses more is longer, and its leading bit alone exceeds the other. -/
theorem cut_mono (hmono : Monotone drop) (hdrop : ∀ l, 0 < l → drop l < l) {m n : Nat}
    (h : m ≤ n) : cut drop m ≤ cut drop n := by
  have hsize := Nat.size_le_size h
  rcases Nat.lt_or_eq_of_le (hmono hsize) with hlt | heq
  · have hne : m.size ≠ n.size := fun he => by rw [he] at hlt; exact Nat.lt_irrefl _ hlt
    have hpos : 0 < n := Nat.size_pos.mp (by omega)
    calc cut drop m ≤ m := cut_le drop m
      _ ≤ 2 ^ m.size := Nat.le_of_lt (Nat.lt_size_self m)
      _ ≤ 2 ^ (n.size - 1) := Nat.pow_le_pow_right (by decide) (by omega)
      _ ≤ cut drop n := leading_le_cut hdrop hpos
  · rw [cut, cut, heq]
    exact Nat.mul_le_mul_right _ (Nat.div_le_div_right h)

/-- The leading bit stays, and so does the length. -/
theorem cut_size (hdrop : ∀ l, 0 < l → drop l < l) (n : Nat) : (cut drop n).size = n.size := by
  refine Nat.le_antisymm (Nat.size_le_size (cut_le drop n)) ?_
  rcases Nat.eq_zero_or_pos n with rfl | hn
  · exact Nat.zero_le _
  · have hpos := Nat.size_pos.mpr hn
    have hlt := Nat.lt_size.mpr (leading_le_cut hdrop hn)
    omega

/-- Where more than `k` bits are left, the loss is less than one part in
`2 ^ k`. -/
theorem sub_cut_mul_le {k : Nat} (hkeep : ∀ l, drop l = 0 ∨ drop l + k < l) (n : Nat) :
    (n - cut drop n) * 2 ^ k ≤ n := by
  have hloss : n - cut drop n = n % 2 ^ drop n.size := by
    have hsum := Nat.div_add_mod n (2 ^ drop n.size)
    rw [Nat.mul_comm] at hsum
    rw [cut]
    omega
  rw [hloss]
  rcases hkeep n.size with hnone | hfew
  · rw [hnone, Nat.pow_zero, Nat.mod_one, Nat.zero_mul]
    exact Nat.zero_le n
  · have hpos : 0 < n := Nat.size_pos.mp (by omega)
    calc n % 2 ^ drop n.size * 2 ^ k ≤ 2 ^ drop n.size * 2 ^ k :=
          Nat.mul_le_mul_right _ (Nat.le_of_lt (Nat.mod_lt _ (Nat.two_pow_pos _)))
      _ = 2 ^ (drop n.size + k) := (Nat.pow_add ..).symm
      _ ≤ 2 ^ (n.size - 1) := Nat.pow_le_pow_right (by decide) (by omega)
      _ ≤ n := leading_le hpos

end Leading
