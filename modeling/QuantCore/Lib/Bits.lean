import Mathlib.Algebra.Group.Nat.Defs
import Mathlib.Data.Nat.Bits

/-!
# Bits in groups

A list of numbers below `2 ^ w` is a string of bits, `w` from each number, the
highest first. The string and the length determine the list, whatever `w` is, so
two lists with groups of different sizes that write the same bits carry the same
information.
-/

namespace BitString

/-- The bit at a place of the string that groups of `w` bits write. -/
def bitAt (w : Nat) (l : List Nat) (k : Nat) : Bool :=
  (l.getD (k / w) 0).testBit (w - 1 - k % w)

theorem ext {w : Nat} (hw : 0 < w) {l l' : List Nat} (hlen : l.length = l'.length)
    (h : ∀ v ∈ l, v < 2 ^ w) (h' : ∀ v ∈ l', v < 2 ^ w)
    (hbits : ∀ k, k < l.length * w → bitAt w l k = bitAt w l' k) : l = l' := by
  refine List.ext_getElem hlen fun i hi hi' => Nat.eq_of_testBit_eq fun b => ?_
  rcases Nat.lt_or_ge b w with hb | hb
  · have hplace : i * w + (w - 1 - b) < l.length * w := by
      have : (i + 1) * w ≤ l.length * w := Nat.mul_le_mul_right w hi
      rw [Nat.succ_mul] at this
      omega
    have hdiv : (i * w + (w - 1 - b)) / w = i := by
      rw [Nat.mul_comm, Nat.mul_add_div hw, Nat.div_eq_of_lt (by omega), Nat.add_zero]
    have hmod : (i * w + (w - 1 - b)) % w = w - 1 - b := by
      rw [Nat.mul_comm, Nat.mul_add_mod, Nat.mod_eq_of_lt (by omega)]
    have hbit := hbits _ hplace
    rw [bitAt, bitAt, hdiv, hmod, List.getD_eq_getElem?_getD, List.getD_eq_getElem?_getD,
      List.getElem?_eq_getElem hi, List.getElem?_eq_getElem hi',
      show w - 1 - (w - 1 - b) = b by omega] at hbit
    exact hbit
  · have hpow : 2 ^ w ≤ 2 ^ b := Nat.pow_le_pow_right (by decide) hb
    rw [Nat.testBit_lt_two_pow (Nat.lt_of_lt_of_le (h _ (List.getElem_mem hi)) hpow),
      Nat.testBit_lt_two_pow (Nat.lt_of_lt_of_le (h' _ (List.getElem_mem hi')) hpow)]

/-! ## Reading a group -/

/-- The number that `n` bits write, the highest first. -/
def readBits (f : Nat → Bool) (n : Nat) : Nat :=
  (List.range n).foldl (fun v j => (v <<< 1) ||| (f j).toNat) 0

theorem readBits_succ (f : Nat → Bool) (n : Nat) :
    readBits f (n + 1) = (readBits f n <<< 1) ||| (f n).toNat := by
  rw [readBits, List.range_succ, List.foldl_append]
  rfl

theorem readBits_lt (f : Nat → Bool) (n : Nat) : readBits f n < 2 ^ n := by
  induction n with
  | zero => exact Nat.one_pos
  | succ n ih =>
      rw [readBits_succ]
      refine Nat.or_lt_two_pow ?_ ?_
      · rw [Nat.shiftLeft_eq, Nat.pow_succ]
        exact Nat.mul_lt_mul_of_pos_right ih (by decide)
      · have hbit := Bool.toNat_lt (f n)
        have hpow : 2 ^ 1 ≤ 2 ^ (n + 1) := Nat.pow_le_pow_right (by decide) (by omega)
        omega

theorem testBit_readBits (f : Nat → Bool) {n j : Nat} (hj : j < n) :
    (readBits f n).testBit (n - 1 - j) = f j := by
  induction n with
  | zero => omega
  | succ n ih =>
      rw [readBits_succ, Nat.testBit_or, Nat.testBit_shiftLeft, Nat.testBit_bool_toNat]
      rcases Nat.lt_or_ge j n with hlt | hge
      · have hone : decide (n + 1 - 1 - j ≥ 1) = true := decide_eq_true (by omega)
        have hzero : decide (n + 1 - 1 - j = 0) = false := decide_eq_false (by omega)
        rw [hone, hzero, Bool.true_and, Bool.false_and, Bool.or_false,
          show n + 1 - 1 - j - 1 = n - 1 - j by omega, ih hlt]
      · obtain rfl : j = n := by omega
        simp

/-! ## Rounds over the places -/

/-- A loop over the groups with a loop over their bits is one over the places. -/
theorem foldl_places {σ : Type} (step : σ → Nat → σ) (n w : Nat) (s : σ) :
    (List.range n).foldl (fun s i => (List.range w).foldl (fun s j => step s (i * w + j)) s) s =
      (List.range (n * w)).foldl step s := by
  induction n with
  | zero =>
      rw [Nat.zero_mul]
      rfl
  | succ n ih =>
      rw [List.range_succ, List.foldl_append, ih, Nat.succ_mul, List.range_add,
        List.foldl_append, List.foldl_cons, List.foldl_nil, List.foldl_map]

end BitString
