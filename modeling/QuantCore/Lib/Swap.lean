import Mathlib.Tactic.NormNum
import Mathlib.Tactic.Positivity
import Mathlib.Tactic.Ring

/-!
# Trading against a constant product

A pool holds `r` of what a trader pays and `o` of what a trader takes. Of a
payment `a` the part `a * f / d` counts, the rest is the fee, and the largest
amount is taken out that does not let the product of the two sides fall. All of
it is floor division, so each law here is an inequality between products.
-/

namespace ConstantProduct

variable {f d a b r o x : Nat}

/-- What a payment of `a` takes out. -/
def out (f d a r o : Nat) : Nat := a * f * o / (r * d + a * f)

theorem le_out_iff (hr : 0 < r * d) : x ≤ out f d a r o ↔ x * (r * d + a * f) ≤ a * f * o :=
  Nat.le_div_iff_mul_le (by omega)

/-- The product of the sides, with the fee left out of the side that is paid in. -/
theorem le_out_iff_product (hr : 0 < r * d) (hx : x ≤ o) :
    x ≤ out f d a r o ↔ r * d * o ≤ (r * d + a * f) * (o - x) := by
  rw [le_out_iff hr]
  obtain ⟨u, rfl⟩ := Nat.exists_eq_add_of_le hx
  rw [Nat.add_sub_cancel_left]
  have h₁ : x * (r * d + a * f) = r * d * x + a * f * x := by ring
  have h₂ : a * f * (x + u) = a * f * x + a * f * u := by ring
  have h₃ : r * d * (x + u) = r * d * x + r * d * u := by ring
  have h₄ : (r * d + a * f) * u = r * d * u + a * f * u := by ring
  rw [h₁, h₂, h₃, h₄]
  omega

/-- The same over the integers, where nothing has to be said of the range. -/
theorem le_out_iff_int (hr : 0 < r * d) {x : Int} :
    x ≤ out f d a r o ↔ ((r : Int) * d + a * f) * (o - x) ≥ r * d * o := by
  have hpos : (0 : Int) < r * d := by exact_mod_cast hr
  have hf : (0 : Int) ≤ a * f := by positivity
  have hmul : ((r : Int) * d + a * f) * (o - x) = r * d * o + (a * f * o - x * (r * d + a * f)) := by
    ring
  rw [hmul, ge_iff_le, le_add_iff_nonneg_right, sub_nonneg]
  rcases Int.lt_or_le x 0 with hx | hx
  · refine iff_of_true (by omega) ?_
    calc x * (r * d + a * f) ≤ 0 := Int.mul_nonpos_of_nonpos_of_nonneg hx.le (by omega)
      _ ≤ a * f * o := by positivity
  · obtain ⟨n, rfl⟩ := Int.eq_ofNat_of_zero_le hx
    rw [Int.ofNat_le, le_out_iff hr]
    norm_cast

/-- The payment that an amount needs. -/
theorem le_out_iff_payment (hr : 0 < r * d) (hx : x ≤ o) :
    x ≤ out f d a r o ↔ r * d * x ≤ a * (f * (o - x)) := by
  rw [le_out_iff hr]
  obtain ⟨u, rfl⟩ := Nat.exists_eq_add_of_le hx
  rw [Nat.add_sub_cancel_left]
  have h₁ : x * (r * d + a * f) = r * d * x + a * f * x := by ring
  have h₂ : a * f * (x + u) = a * f * x + a * (f * u) := by ring
  rw [h₁, h₂]
  omega

/-- A side is never emptied. -/
theorem out_lt (hr : 0 < r * d) (ho : 0 < o) : out f d a r o < o := by
  rw [out, Nat.div_lt_iff_lt_mul (by omega)]
  have h₁ : o * (r * d + a * f) = o * (r * d) + a * f * o := by ring
  have h₂ : 0 < o * (r * d) := Nat.mul_pos ho hr
  omega

theorem out_le (hr : 0 < r * d) : out f d a r o ≤ o := by
  rcases Nat.eq_zero_or_pos o with rfl | ho
  · rw [out, Nat.mul_zero, Nat.zero_div]
  · exact Nat.le_of_lt (out_lt hr ho)

theorem out_mono (hr : 0 < r * d) (h : a ≤ b) : out f d a r o ≤ out f d b r o := by
  rw [le_out_iff_payment hr (out_le hr)]
  calc r * d * out f d a r o ≤ a * (f * (o - out f d a r o)) :=
        (le_out_iff_payment hr (out_le hr)).mp (Nat.le_refl _)
    _ ≤ b * (f * (o - out f d a r o)) := Nat.mul_le_mul_right _ h

/-- Paying in two parts takes out no more: the fee of the first part stays in the
pool and makes the second one dearer. -/
theorem out_split (hr : 0 < r * d) (hfee : f ≤ d) :
    out f d a r o + out f d b (r + a) (o - out f d a r o) ≤ out f d (a + b) r o := by
  have hr' : 0 < (r + a) * d := by
    rw [Nat.add_mul]
    omega
  have hx : out f d a r o ≤ o := out_le hr
  generalize hxe : out f d a r o = x at hx
  have hy : out f d b (r + a) (o - x) ≤ o - x := out_le hr'
  generalize hye : out f d b (r + a) (o - x) = y at hy
  have h₁ : r * d * o ≤ (r * d + a * f) * (o - x) :=
    (le_out_iff_product hr hx).mp hxe.ge
  have h₂ : (r + a) * d * (o - x) ≤ ((r + a) * d + b * f) * (o - x - y) :=
    (le_out_iff_product hr' hy).mp hye.ge
  rw [le_out_iff_product hr (by omega), ← Nat.sub_sub]
  -- What the fee leaves behind, `a * d - a * f`, counts for the second part.
  obtain ⟨fee, hfee⟩ : ∃ fee, a * d = a * f + fee :=
    Nat.exists_eq_add_of_le (Nat.mul_le_mul_left a hfee)
  have h₃ : fee * (o - x - y) ≤ fee * (o - x) := Nat.mul_le_mul_left fee (Nat.sub_le _ _)
  have h₄ : (r + a) * d * (o - x) = (r * d + a * f) * (o - x) + fee * (o - x) := by
    rw [Nat.add_mul r a d, hfee]
    ring
  have h₅ : ((r + a) * d + b * f) * (o - x - y) =
      (r * d + (a + b) * f) * (o - x - y) + fee * (o - x - y) := by
    rw [Nat.add_mul r a d, hfee]
    ring
  omega

end ConstantProduct
