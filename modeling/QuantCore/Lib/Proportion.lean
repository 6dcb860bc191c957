import Mathlib.Tactic.Ring

/-!
# Paying out proportions

A reserve `r` is owned by `S` shares. Whoever gives up `s` of them is paid
`s * r / S`, rounded down. What is kept by rounding goes to those who stay, so
what a share stands for, `r / S`, never falls; written without the division, the
reserves `r` and `r'` of `S` and `S'` shares compare as `r * S' ≤ r' * S`.
-/

namespace Proportion

variable {r r' r'' s S S' S'' : Nat}

/-- A share of `r'` is worth at least one of `r`. -/
def NoLess (r S r' S' : Nat) : Prop := r * S' ≤ r' * S

theorem NoLess.refl (r S : Nat) : NoLess r S r S := Nat.le_refl _

theorem NoLess.trans (hS : 0 < S') (h₁ : NoLess r S r' S') (h₂ : NoLess r' S' r'' S'') :
    NoLess r S r'' S'' := by
  refine Nat.le_of_mul_le_mul_right ?_ hS
  calc r * S'' * S' = r * S' * S'' := by ring
    _ ≤ r' * S * S'' := Nat.mul_le_mul_right _ h₁
    _ = r' * S'' * S := by ring
    _ ≤ r'' * S' * S := Nat.mul_le_mul_right _ h₂
    _ = r'' * S * S' := by ring

/-- Where a share is worth no less, as many shares are paid no less. -/
theorem NoLess.payout_le (hS : 0 < S) (hS' : 0 < S') (h : NoLess r S r' S') :
    s * r / S ≤ s * r' / S' := by
  rw [Nat.le_div_iff_mul_le hS']
  refine Nat.le_of_mul_le_mul_right ?_ hS
  calc s * r / S * S' * S = s * r / S * S * S' := by ring
    _ ≤ s * r * S' := Nat.mul_le_mul_right _ (Nat.div_mul_le_self _ _)
    _ = s * (r * S') := by ring
    _ ≤ s * (r' * S) := Nat.mul_le_mul_left _ h
    _ = s * r' * S := by ring

/-- A reserve is not used up while shares are left. -/
theorem NoLess.pos (hr : 0 < r) (hS' : 0 < S') (h : NoLess r S r' S') : 0 < r' := by
  refine Nat.pos_of_ne_zero fun he => ?_
  rw [NoLess, he, Nat.zero_mul] at h
  have := Nat.mul_pos hr hS'
  omega

/-- Of two reserves whose product is at least the square of the shares, one pays
something for every share. -/
theorem payout_pos_of_sq_le {t : Nat} (hs : 0 < s) (hS : 0 < S) (h : S ^ 2 ≤ r * t) :
    0 < s * r / S ∨ 0 < s * t / S := by
  have hone : S ≤ r ∨ S ≤ t := by
    by_contra hno
    rw [not_or, Nat.not_le, Nat.not_le] at hno
    have hlt : r * t < S * S := Nat.mul_lt_mul'' hno.1 hno.2
    rw [Nat.pow_two] at h
    omega
  have hpos : ∀ x, S ≤ x → 0 < s * x / S := fun x hx =>
    Nat.div_pos (hx.trans (Nat.le_mul_of_pos_left x hs)) hS
  exact hone.imp (hpos r) (hpos t)

end Proportion
