import Mathlib.Algebra.Order.Ring.Nat
import Mathlib.Data.List.TakeWhile
import Mathlib.Tactic.Ring

/-!
# Decimal texts

A decimal text has digits before a dot, after it, or both, and no dot if it has
no fraction. It denotes the number its digits write, divided by ten for every
digit after the dot. Scaled to a fixed number of decimals it is a natural
number, provided it has no more digits after the dot than that.
-/

namespace DecimalText

/-- A number of digits, some of them decimal places. -/
structure Decimal where
  digits : Nat
  places : Nat
deriving DecidableEq, Repr

/-- The digits before the first dot. -/
def whole (cs : List Char) : List Char := cs.takeWhile (· ≠ '.')

/-- What follows the first dot. -/
def fraction (cs : List Char) : List Char := (cs.dropWhile (· ≠ '.')).drop 1

/-- The decimal a text writes: at least one digit, and nothing but digits before
and after the dot. -/
def ofText (cs : List Char) : Option Decimal :=
  let ds := whole cs ++ fraction cs
  if ds = [] ∨ ¬ ds.all Char.isDigit then none
  else some ⟨Nat.ofDigitChars 10 ds 0, (fraction cs).length⟩

/-- In units of `10 ^ -dec`, if it has no finer part and is at most `max`. -/
def Decimal.scaled (x : Decimal) (dec max : Nat) : Option Nat :=
  if x.places ≤ dec ∧ x.digits * 10 ^ (dec - x.places) ≤ max then
    some (x.digits * 10 ^ (dec - x.places))
  else none

/-- Scaling is exact. -/
theorem Decimal.scaled_some {x : Decimal} {dec max v : Nat} (h : x.scaled dec max = some v) :
    x.digits * 10 ^ dec = v * 10 ^ x.places ∧ v ≤ max := by
  rw [scaled] at h
  split at h
  · next hfit =>
      cases h
      refine ⟨?_, hfit.2⟩
      rw [Nat.mul_assoc, ← Nat.pow_add, Nat.sub_add_cancel hfit.1]
  · cases h

/-! ## Parts of a text -/

theorem whole_point {w f : List Char} (hw : w.all Char.isDigit) :
    whole (w ++ '.' :: f) = w ∧ fraction (w ++ '.' :: f) = f := by
  have hnodot : ∀ c ∈ w, (c ≠ '.' : Bool) = true := by
    intro c hc
    have hdigit := List.all_eq_true.mp hw c hc
    rw [decide_eq_true_eq]
    rintro rfl
    exact absurd hdigit (by decide)
  rw [whole, fraction, List.takeWhile_append_of_pos hnodot, List.dropWhile_append_of_pos hnodot]
  exact ⟨List.append_nil w, rfl⟩

theorem whole_only {w : List Char} (hw : w.all Char.isDigit) :
    whole w = w ∧ fraction w = [] := by
  have hnodot : ∀ c ∈ w, (c ≠ '.' : Bool) = true := by
    intro c hc
    have hdigit := List.all_eq_true.mp hw c hc
    rw [decide_eq_true_eq]
    rintro rfl
    exact absurd hdigit (by decide)
  have htake : w.takeWhile (· ≠ '.') = w := List.takeWhile_eq_self_iff.mpr hnodot
  have hdrop : w.dropWhile (· ≠ '.') = [] := List.dropWhile_eq_nil_iff.mpr hnodot
  rw [whole, fraction, htake, hdrop]
  exact ⟨rfl, rfl⟩

theorem ofText_point {w f : List Char} (hw : w.all Char.isDigit) (hf : f.all Char.isDigit)
    (hne : w ≠ []) :
    ofText (w ++ '.' :: f) = some ⟨Nat.ofDigitChars 10 (w ++ f) 0, f.length⟩ := by
  obtain ⟨hwhole, hfraction⟩ := whole_point (f := f) hw
  rw [ofText, hwhole, hfraction, if_neg]
  rintro (hnil | hdigits)
  · exact hne (List.append_eq_nil_iff.mp hnil).1
  · exact hdigits (by rw [List.all_append, hw, hf]; rfl)

theorem ofText_whole {w : List Char} (hw : w.all Char.isDigit) (hne : w ≠ []) :
    ofText w = some ⟨Nat.ofDigitChars 10 w 0, 0⟩ := by
  obtain ⟨hwhole, hfraction⟩ := whole_only hw
  rw [ofText, hwhole, hfraction, List.append_nil, if_neg, List.length_nil]
  rintro (hnil | hdigits)
  · exact hne hnil
  · exact hdigits hw

/-! ## Reading digits under a bound -/

theorem le_ofDigitChars (l : List Char) (v : Nat) : v ≤ Nat.ofDigitChars 10 l v := by
  rw [Nat.ofDigitChars_eq_ofDigitChars_zero]
  have hpos : 1 * v ≤ 10 ^ l.length * v := Nat.mul_le_mul_right v (Nat.pow_pos (by decide))
  omega

theorem isDigit_eq (c : Char) : c.isDigit = !(c < '0' || c > '9') := by
  rw [Bool.eq_iff_iff]
  simp only [Char.isDigit, Bool.and_eq_true, decide_eq_true_eq, Bool.not_eq_true',
    Bool.or_eq_false_iff, decide_eq_false_iff_not, Char.not_lt]
  rfl

/-- A loop that stops at anything but a digit and at a value that does not fit,
where what fits is closed downwards: it stops just if there is such a character
or the whole value does not fit. -/
theorem foldlM_digits (fits : Nat → Prop) [DecidablePred fits]
    {step : Nat → Char → Option Nat} (hdown : ∀ {a b}, a ≤ b → fits b → fits a)
    (hstep : ∀ v c, step v c =
      if ¬ c.isDigit then none
      else if ¬ fits (v * 10 + (c.toNat - '0'.toNat)) then none
      else some (v * 10 + (c.toNat - '0'.toNat)))
    (l : List Char) {v : Nat} (hv : fits v) :
    l.foldlM step v =
      if l.all Char.isDigit ∧ fits (Nat.ofDigitChars 10 l v) then
        some (Nat.ofDigitChars 10 l v)
      else none := by
  induction l generalizing v with
  | nil =>
      rw [Nat.ofDigitChars_nil, if_pos ⟨rfl, hv⟩]
      rfl
  | cons c l ih =>
      rw [List.foldlM_cons, hstep, List.all_cons, Nat.ofDigitChars_cons, Nat.mul_comm 10 v]
      split
      · next hc =>
          rw [if_neg]
          · rfl
          · rintro ⟨hall, -⟩
            exact hc (Bool.and_eq_true_iff.mp hall).1
      · next hc =>
          rw [not_not] at hc
          rw [hc, Bool.true_and]
          split
          · next hlarge =>
              rw [if_neg]
              · rfl
              · rintro ⟨-, hfit⟩
                exact hlarge (hdown (le_ofDigitChars l _) hfit)
          · next hfits => exact ih (not_not.mp hfits)

/-! ## Zeros at the end -/

/-- What is left when zeros are taken off the end, and how many they were. -/
theorem dropZeros (l : List Char) : ∃ k,
    l = (l.reverse.dropWhile (· = '0')).reverse ++ List.replicate k '0' := by
  refine ⟨(l.reverse.takeWhile (· = '0')).length, ?_⟩
  have hzeros : l.reverse.takeWhile (· = '0') =
      List.replicate (l.reverse.takeWhile (· = '0')).length '0' := by
    refine List.eq_replicate_of_mem fun c hc => ?_
    exact decide_eq_true_eq.mp (List.all_eq_true.mp List.all_takeWhile c hc)
  have hsplit := congrArg List.reverse
    (List.takeWhile_append_dropWhile (p := (· = '0')) (l := l.reverse))
  rw [List.reverse_append, List.reverse_reverse, hzeros, List.reverse_replicate] at hsplit
  exact hsplit.symm

theorem ofDigitChars_zeros (l : List Char) (k : Nat) :
    Nat.ofDigitChars 10 (l ++ List.replicate k '0') 0 = Nat.ofDigitChars 10 l 0 * 10 ^ k := by
  rw [Nat.ofDigitChars_append, Nat.ofDigitChars_replicate_zero, Nat.mul_comm]

end DecimalText
