import Mathlib.Algebra.Order.Group.Nat
import Mathlib.Order.Monotone.Basic

/-!
# A total that grows by what is left

Every round adds `f x` to a total of `x`, and `f` does not increase: the rounds
add less and less. If `f` has a floor, then from the first round that adds no
more than the floor every round adds exactly that.
-/

namespace Decay

variable {f : Nat → Nat} {m : Nat}

/-- The total after a number of rounds. -/
def total (f : Nat → Nat) : Nat → Nat
  | 0 => 0
  | n + 1 => total f n + f (total f n)

theorem total_mono (f : Nat → Nat) : Monotone (total f) :=
  monotone_nat_of_le_succ fun _ => Nat.le_add_right _ _

theorem round_antitone (hf : Antitone f) : Antitone fun n => f (total f n) :=
  hf.comp_monotone (total_mono f)

theorem round_floor (hf : Antitone f) (hm : ∀ x, m ≤ f x) {a b : Nat} (hab : a ≤ b)
    (h : f (total f a) = m) : f (total f b) = m :=
  Nat.le_antisymm (h ▸ round_antitone hf hab) (hm _)

theorem total_floor (hf : Antitone f) (hm : ∀ x, m ≤ f x) {a : Nat} (h : f (total f a) = m)
    (k : Nat) : total f (a + k) = total f a + k * m := by
  induction k with
  | zero => rw [Nat.zero_mul]; rfl
  | succ k ih =>
      rw [← Nat.add_assoc, total, round_floor hf hm (Nat.le_add_right a k) h, ih, Nat.succ_mul,
        Nat.add_assoc]

theorem mul_le_total (hm : ∀ x, m ≤ f x) (n : Nat) : n * m ≤ total f n := by
  induction n with
  | zero => rw [Nat.zero_mul]; rfl
  | succ n ih =>
      rw [Nat.succ_mul]
      exact Nat.add_le_add ih (hm _)

theorem total_le (hf : Antitone f) (n k : Nat) : total f (n + k) ≤ total f n + k * f 0 := by
  induction k with
  | zero => rw [Nat.zero_mul]; rfl
  | succ k ih =>
      rw [← Nat.add_assoc, total, Nat.succ_mul, ← Nat.add_assoc]
      exact Nat.add_le_add ih (hf (Nat.zero_le _))

end Decay
