import Mathlib.Algebra.Group.Nat.Defs
import Mathlib.Data.List.Induction

/-!
# Numerals

A string of digits, the most significant first, and the number it writes. The
order of two strings of one length, decided by the first digit that differs, is
the order of the numbers.
-/

namespace Numeral

variable {α : Type}

/-- The number that the digits write. -/
def value (f : α → Nat) (base : Nat) : List α → Nat
  | [] => 0
  | d :: ds => f d * base ^ ds.length + value f base ds

theorem value_lt {f : α → Nat} {base : Nat} (hf : ∀ d, f d < base) (ds : List α) :
    value f base ds < base ^ ds.length := by
  induction ds with
  | nil => exact Nat.one_pos
  | cons d ds ih =>
      have hd : (f d + 1) * base ^ ds.length ≤ base * base ^ ds.length :=
        Nat.mul_le_mul_right _ (hf d)
      rw [Nat.succ_mul] at hd
      rw [value, List.length_cons, Nat.pow_succ']
      omega

section Order

variable [DecidableEq α] [LT α] [DecidableLT α]

/-- The order of the first digits that differ. -/
def firstDiff : List α → List α → Ordering
  | a :: as, b :: bs => if a = b then firstDiff as bs else if a < b then .lt else .gt
  | _, _ => .eq

theorem firstDiff_eq_compare {f : α → Nat} {base : Nat} (hf : ∀ d, f d < base)
    (hlt : ∀ a b, a < b ↔ f a < f b) (hinj : ∀ a b, f a = f b → a = b) {as bs : List α}
    (hlen : as.length = bs.length) :
    firstDiff as bs = compare (value f base as) (value f base bs) := by
  induction as generalizing bs with
  | nil =>
      obtain rfl := List.length_eq_zero_iff.mp hlen.symm
      exact (Nat.compare_eq_eq.mpr rfl).symm
  | cons a as ih =>
      obtain ⟨b, bs, rfl⟩ := List.exists_cons_of_length_eq_add_one hlen.symm
      have hlen : as.length = bs.length := Nat.succ.inj hlen
      have ha := value_lt hf as
      have hb := value_lt hf bs
      -- a smaller first digit outweighs whatever follows
      have hstep : ∀ {x y : Nat}, x < y →
          (x + 1) * base ^ bs.length ≤ y * base ^ bs.length :=
        fun hxy => Nat.mul_le_mul_right _ hxy
      rw [firstDiff, value, value, hlen]
      rw [hlen] at ha
      split
      · next hab =>
          rw [hab, ih hlen]
          simp only [Nat.compare_eq_ite_lt, Nat.add_lt_add_iff_left]
      · next hab =>
          split
          · next h =>
              have := hstep ((hlt a b).mp h)
              rw [Nat.succ_mul] at this
              exact (Nat.compare_eq_lt.mpr (by omega)).symm
          · next h =>
              have hne : f a ≠ f b := fun he => hab (hinj a b he)
              have hge : f b < f a := by
                rw [hlt] at h
                omega
              have := hstep hge
              rw [Nat.succ_mul] at this
              exact (Nat.compare_eq_gt.mpr (by omega)).symm

end Order

end Numeral
