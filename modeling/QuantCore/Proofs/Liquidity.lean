import Mathlib.Data.Nat.Sqrt
import Mathlib.Tactic.Linarith
import Mathlib.Tactic.Zify
import QuantCore.Lib.Proportion
import QuantCore.Proofs.Solvency

/-!
# Shares, minted and burned

The shares of a new pool are the integer square root of the product of its
reserves, found by Newton's iteration from a power of two above it; that nothing
leaves 128 bits on the way is shown on a copy of the loops that checks every sum
and product.

Shares can be burned again in any order: what each holder is paid only grows
with the withdrawals before it, and the locked shares keep both reserves above
zero to the end.
-/

namespace QuantCore

open Proportion

/-! ## Newton's iteration -/

/-- The iteration never goes below the root. -/
theorem sqrt_le_newton {n x : Nat} (hx : 0 < x) : Nat.sqrt n ≤ (x + n / x) / 2 := by
  rw [Nat.le_div_iff_mul_le (by decide)]
  have hn := Nat.lt_mul_div_succ n hx
  have hs := Nat.sqrt_le n
  by_contra hlt
  -- With `n / x < 2 * s - x`, the product `x * (2 * s - x)` is above `n` and at most `s * s`.
  obtain ⟨d, hd⟩ := Nat.exists_eq_add_of_le (show x + (n / x + 1) ≤ Nat.sqrt n * 2 by omega)
  have hsq : x * (n / x + 1) ≤ Nat.sqrt n * Nat.sqrt n := by
    have hmul : x * (n / x + 1) ≤ x * (n / x + 1 + d) := Nat.mul_le_mul_left _ (by omega)
    zify at hd hmul ⊢
    nlinarith [sq_nonneg ((Nat.sqrt n : Int) - x)]
  omega

/-- It stops at the root. -/
theorem le_sqrt_of_newton {n x : Nat} (hx : 0 < x) (h : x ≤ (x + n / x) / 2) :
    x ≤ Nat.sqrt n := by
  rw [Nat.le_div_iff_mul_le (by decide)] at h
  rw [Nat.le_sqrt]
  exact (Nat.le_div_iff_mul_le hx).mp (by omega)

/-! ## The loops with their sums and products checked -/

/-- A 128-bit operation, none if its result does not fit. -/
def fits128 (v : Nat) : Option Nat := if v < 2 ^ 128 then some v else none

theorem fits128_of_lt {v : Nat} (h : v < 2 ^ 128) : fits128 v = some v := if_pos h

/-- `newtonSqrt`, where the divisor is not zero and the sum fits. -/
def checkedNewton (n x : Nat) : Option Nat :=
  if x = 0 then none
  else
    (fits128 (x + n / x)).bind fun sum =>
      if x ≤ sum / 2 then some x else if sum / 2 < x then checkedNewton n (sum / 2) else none
termination_by x

/-- `sqrtDown`, where the square fits. -/
def checkedDown (n : Nat) : Nat → Option Nat
  | 0 => some 0
  | x + 1 =>
      (fits128 ((x + 1) * (x + 1))).bind fun square =>
        if square > n then checkedDown n x else some (x + 1)

/-- `ammInitialShares` in checked arithmetic. -/
def checkedInitialShares (qnt tok : Amount) : Option Amount :=
  (fits128 (qnt.toNat * tok.toNat)).bind fun n =>
    if n = 0 then some 0
    else
      (fits128 (1 <<< ((Nat.log2 n + 1 + 1) / 2))).bind fun start =>
        (checkedNewton n start).bind fun x =>
          (checkedDown n x).bind fun x => if x < 2 ^ 64 then some (UInt64.ofNat x) else none

/-- From at or above the root the iteration ends at it. The sum it takes is at
most `x` and the quotient at the root, and both have half the bits. -/
theorem checkedNewton_eq {n x : Nat} (hn : 0 < n) (hs : Nat.sqrt n ≤ x) (hx : x ≤ 2 ^ 64) :
    checkedNewton n x = some (Nat.sqrt n) := by
  have hroot : 0 < Nat.sqrt n := Nat.sqrt_pos.mpr hn
  induction x using Nat.strong_induction_on with
  | _ x ih =>
      have hpos : 0 < x := by omega
      have hquot : n / x ≤ Nat.sqrt n + 2 := by
        have hdiv := Nat.div_le_div_left hs hroot (a := n)
        have hadd := Nat.sqrt_le_add n
        have hle : n / Nat.sqrt n ≤ Nat.sqrt n + 2 := by
          rw [Nat.div_le_iff_le_mul_add_pred hroot]
          have hmul : Nat.sqrt n * (Nat.sqrt n + 2) =
              Nat.sqrt n * Nat.sqrt n + Nat.sqrt n + Nat.sqrt n := by ring
          omega
        omega
      have hbig : (2 : Nat) ^ 128 = 2 ^ 64 * 2 ^ 64 := rfl
      have hfit : x + n / x < 2 ^ 128 := by omega
      rw [checkedNewton, if_neg (by omega), fits128_of_lt hfit, Option.bind_some]
      split
      · next hstop =>
          rw [Nat.le_antisymm (le_sqrt_of_newton hpos hstop) hs]
      · next hgo =>
          rw [if_pos (Nat.lt_of_not_le hgo)]
          exact ih _ (Nat.lt_of_not_le hgo) (sqrt_le_newton hpos) (by omega)

/-- At the root there is nothing to correct. -/
theorem checkedDown_eq {n : Nat} (hlt : n < 2 ^ 128) :
    checkedDown n (Nat.sqrt n) = some (Nat.sqrt n) := by
  have hs := Nat.sqrt_le n
  cases hx : Nat.sqrt n with
  | zero => rfl
  | succ x =>
      rw [hx] at hs
      rw [checkedDown, fits128_of_lt (by omega), Option.bind_some, if_neg (by omega)]

theorem newtonSqrt_of_checked {n x r : Nat} (h : checkedNewton n x = some r) :
    newtonSqrt n x = r := by
  induction x using Nat.strong_induction_on with
  | _ x ih =>
      rw [checkedNewton] at h
      split at h
      · cases h
      · obtain ⟨sum, hsum, h⟩ := Option.bind_eq_some_iff.mp h
        rw [fits128] at hsum
        split at hsum
        · cases hsum
          rw [newtonSqrt]
          split at h
          · next hstop =>
              cases h
              exact if_pos hstop
          · next hgo =>
              rw [if_pos (Nat.lt_of_not_le hgo)] at h
              simp only [ge_iff_le, if_neg hgo]
              exact ih _ (Nat.lt_of_not_le hgo) h
        · cases hsum

theorem sqrtDown_of_checked {n x r : Nat} (h : checkedDown n x = some r) : sqrtDown n x = r := by
  induction x with
  | zero =>
      cases h
      rfl
  | succ x ih =>
      rw [checkedDown] at h
      obtain ⟨square, hsquare, h⟩ := Option.bind_eq_some_iff.mp h
      rw [fits128] at hsquare
      split at hsquare
      · cases hsquare
        rw [sqrtDown]
        split at h
        · next hgt => rw [if_pos hgt, ih h]
        · next hle =>
            cases h
            exact if_neg hle
      · cases hsquare

/-- The first shares are the floor of the square root, and the code gets there
without a sum or product that leaves 128 bits. -/
theorem initial_shares_exact (qnt tok : Amount) :
    (ammInitialShares qnt tok).toNat = Nat.sqrt (qnt.toNat * tok.toNat) ∧
      checkedInitialShares qnt tok = some (ammInitialShares qnt tok) := by
  have hq := qnt.toNat_lt
  have ht := tok.toNat_lt
  have hlt : qnt.toNat * tok.toNat < 2 ^ 128 := by
    have hmul := Nat.mul_lt_mul'' hq ht
    exact hmul
  rw [ammInitialShares, checkedInitialShares, fits128_of_lt hlt, Option.bind_some]
  generalize hn : qnt.toNat * tok.toNat = n at hlt
  simp only []
  split
  · next hz =>
      rw [hz]
      exact ⟨rfl, rfl⟩
  next hne =>
  have hpos : 0 < n := Nat.pos_of_ne_zero hne
  have hlog : Nat.log2 n < 128 := (Nat.log2_lt hne).mpr hlt
  have hstart : (1 <<< ((Nat.log2 n + 1 + 1) / 2) : Nat) = 2 ^ ((Nat.log2 n + 1 + 1) / 2) := by
    rw [Nat.shiftLeft_eq, Nat.one_mul]
  have hle : 2 ^ ((Nat.log2 n + 1 + 1) / 2) ≤ 2 ^ 64 :=
    Nat.pow_le_pow_right (by decide) (by omega)
  -- Twice the exponent is at least the number of bits.
  have habove : Nat.sqrt n ≤ 2 ^ ((Nat.log2 n + 1 + 1) / 2) := by
    refine (Nat.sqrt_lt.mpr ?_).le
    rw [← Nat.pow_add]
    exact Nat.lt_log2_self.trans_le (Nat.pow_le_pow_right (by decide) (by omega))
  have hnewton := checkedNewton_eq hpos habove hle
  have hdown := checkedDown_eq hlt
  have hroot : Nat.sqrt n < 2 ^ 64 := Nat.sqrt_lt.mpr hlt
  rw [hstart, newtonSqrt_of_checked hnewton, sqrtDown_of_checked hdown,
    fits128_of_lt (hle.trans_lt (by decide)), Option.bind_some, hnewton, Option.bind_some, hdown,
    Option.bind_some, if_pos hroot]
  exact ⟨UInt64.toNat_ofNat_of_lt' hroot, rfl⟩

/-! ## Withdrawing -/

/-- A quotient that is at most the second factor fits. -/
theorem mulDiv_toNat {a b c : Amount} (hc : 0 < c.toNat) (ha : a.toNat ≤ c.toNat) :
    (mulDiv a b c).toNat = a.toNat * b.toNat / c.toNat := by
  have hle : a.toNat * b.toNat / c.toNat ≤ b.toNat := by
    rw [Nat.div_le_iff_le_mul_add_pred hc]
    have := Nat.mul_le_mul_right b.toNat ha
    omega
  have hlt : a.toNat * b.toNat / c.toNat < 2 ^ 64 := hle.trans_lt b.toNat_lt
  have hne : c ≠ 0 := ne_zero_iff_toNat.mpr hc
  rw [mulDiv, if_neg hne]
  simp only []
  rw [if_neg, UInt64.toNat_ofNat_of_lt' hlt]
  rw [ne_eq, not_not, Nat.shiftRight_eq_div_pow, Nat.div_eq_of_lt hlt]

/-- The op of a holder who burns `s` shares for what `amm_remove_amounts` says. -/
def Pool.burnOp (p : Pool) (t : Hash256) (s : Amount) : OpRemoveLiquidity where
  token := t
  shares := s
  qnt := (ammRemoveAmounts p s).1
  tok := (ammRemoveAmounts p s).2

/-- The pool after that. -/
def Pool.burn (p : Pool) (s : Amount) : Pool :=
  { p with
    qnt := p.qnt - (ammRemoveAmounts p s).1
    tok := p.tok - (ammRemoveAmounts p s).2
    shares := p.shares - s }

/-- Holders who burn what they hold, one after another. -/
def Pool.burnAll (p : Pool) (hs : List Amount) : Pool := hs.foldl Pool.burn p

/-- A pool some of whose shares have been burned: the locked ones are there, and
a share is worth no less on either side than at first. -/
structure Pool.Drained (p p' : Pool) : Prop where
  solvent : p'.Solvent
  qnt : NoLess p.qnt.toNat p.shares.toNat p'.qnt.toNat p'.shares.toNat
  tok : NoLess p.tok.toNat p.shares.toNat p'.tok.toNat p'.shares.toNat

theorem Pool.Solvent.shares_pos {p : Pool} (h : p.Solvent) : 0 < p.shares.toNat := by
  have hmin : minLiquidity.toNat = 1000 := rfl
  have := h.shares
  omega

theorem Pool.Solvent.drained {p : Pool} (h : p.Solvent) : p.Drained p :=
  ⟨h, .refl _ _, .refl _ _⟩

/-- The pool part of the op, and so the op wherever it finds the pool. -/
theorem Pool.burn_accepted {p : Pool} {s : Amount} (h : p.Solvent)
    (hs : s.toNat ≤ p.shares.toNat - minLiquidity.toNat) (known : Bool) (t : Hash256) :
    poolStep known (.removeLiquidity (p.burnOp t s)) (some p) = .ok (p.burn s) := by
  have hshares : ¬ s > p.shares - minLiquidity := by
    rw [gt_iff_lt, UInt64.not_lt, UInt64.le_iff_toNat_le, sub_toNat_of_le h.shares]
    exact hs
  rw [poolStep, Pool.burnOp, if_neg hshares]
  simp only [gt_iff_lt, UInt64.lt_irrefl, or_self, if_false]
  rfl

theorem Pool.Drained.burn {p p' : Pool} {s : Amount} (h : p.Drained p')
    (hs : s.toNat ≤ p'.shares.toNat - minLiquidity.toNat) :
    p.Drained (p'.burn s) ∧ (p'.burn s).shares.toNat = p'.shares.toNat - s.toNat := by
  have hsound := removeLiquidity_sound h.solvent (p'.burn_accepted h.solvent hs true 0)
  obtain ⟨-, -, hshares⟩ := hsound.exact
  obtain ⟨hq, ht⟩ := hsound.fair p' rfl
  have hpos := h.solvent.shares_pos
  refine ⟨⟨hsound.solvent, h.qnt.trans hpos hq, h.tok.trans hpos ht⟩, ?_⟩
  have hburn : (p'.burnOp 0 s).shares = s := rfl
  rw [hburn] at hshares
  omega

theorem Pool.Drained.burnAll {p p' : Pool} (h : p.Drained p') (hs : List Amount)
    (hsum : (hs.map UInt64.toNat).sum ≤ p'.shares.toNat - minLiquidity.toNat) :
    p.Drained (p'.burnAll hs) ∧
      (p'.burnAll hs).shares.toNat = p'.shares.toNat - (hs.map UInt64.toNat).sum := by
  induction hs generalizing p' with
  | nil => exact ⟨h, rfl⟩
  | cons s hs ih =>
      rw [List.map_cons, List.sum_cons] at hsum
      obtain ⟨hd, hshares⟩ := h.burn (s := s) (by omega)
      obtain ⟨hd', hshares'⟩ := ih hd (by omega)
      rw [List.map_cons, List.sum_cons]
      refine ⟨hd', ?_⟩
      show ((p'.burn s).burnAll hs).shares.toNat = _
      rw [hshares', hshares]
      omega

/-- What is paid for `s` shares of a drained pool. -/
theorem Pool.Drained.payout {p p' : Pool} {s : Amount} (h : p.Drained p')
    (hp : 0 < p.shares.toNat) (hs : s.toNat ≤ p'.shares.toNat - minLiquidity.toNat) :
    s.toNat * p.qnt.toNat / p.shares.toNat ≤ (ammRemoveAmounts p' s).1.toNat ∧
      s.toNat * p.tok.toNat / p.shares.toNat ≤ (ammRemoveAmounts p' s).2.toNat ∧
      (s ≠ 0 → (ammRemoveAmounts p' s).1 ≠ 0 ∨ (ammRemoveAmounts p' s).2 ≠ 0) := by
  have hpos := h.solvent.shares_pos
  have hle : s.toNat ≤ p'.shares.toNat := by omega
  have hq : (ammRemoveAmounts p' s).1.toNat = s.toNat * p'.qnt.toNat / p'.shares.toNat :=
    mulDiv_toNat hpos hle
  have ht : (ammRemoveAmounts p' s).2.toNat = s.toNat * p'.tok.toNat / p'.shares.toNat :=
    mulDiv_toNat hpos hle
  rw [hq, ht]
  refine ⟨h.qnt.payout_le hp hpos, h.tok.payout_le hp hpos, fun hne => ?_⟩
  rw [ne_zero_iff_toNat, ne_zero_iff_toNat, hq, ht]
  exact payout_pos_of_sq_le (ne_zero_iff_toNat.mp hne) hpos h.solvent.backed

variable [Crypto]

/-- All shares but the locked ones can be burned, by whoever holds them and in
whatever order. Each holder's op is accepted where the pool is what those before
have left, pays no less than a proportion of the pool at first, and pays
something; at the end the locked shares still have both reserves. -/
theorem withdraw_any_order {genesis : Hash256} {v : LedgerView} (hv : Traded genesis v)
    {t : Hash256} {p : Pool} (hp : v.pool t = some p) (hs : List Amount)
    (hsum : (hs.map UInt64.toNat).sum = p.shares.toNat - minLiquidity.toNat) :
    (∀ before s after, hs = before ++ s :: after →
      s.toNat * p.qnt.toNat / p.shares.toNat ≤
          ((p.burnAll before).burnOp t s).qnt.toNat ∧
        s.toNat * p.tok.toNat / p.shares.toNat ≤
          ((p.burnAll before).burnOp t s).tok.toNat ∧
        (s ≠ 0 → ((p.burnAll before).burnOp t s).qnt ≠ 0 ∨
          ((p.burnAll before).burnOp t s).tok ≠ 0) ∧
        ∀ r tx height coins i st, getPool r st t = some (p.burnAll before) →
          ∃ st', applyOp r tx height coins i st
              (.removeLiquidity ((p.burnAll before).burnOp t s)) = .ok st' ∧
            getPool r st' t = some (p.burnAll (before ++ [s]))) ∧
      (p.burnAll hs).shares = minLiquidity ∧ 0 < (p.burnAll hs).qnt ∧
        0 < (p.burnAll hs).tok := by
  have hsolvent := hv.solvent t p hp
  have hmin := hsolvent.shares
  refine ⟨fun before s after hsplit => ?_, ?_⟩
  · rw [hsplit, List.map_append, List.sum_append, List.map_cons, List.sum_cons] at hsum
    obtain ⟨hd, hshares⟩ := hsolvent.drained.burnAll before (by omega)
    have hle : s.toNat ≤ (p.burnAll before).shares.toNat - minLiquidity.toNat := by
      rw [hshares]
      omega
    obtain ⟨hq, ht, hpos⟩ := hd.payout hsolvent.shares_pos hle
    refine ⟨hq, ht, hpos, fun r tx height coins i st hst => ?_⟩
    have hstep := Pool.burn_accepted hd.solvent hle (tokenKnown r st t) t
    rw [applyOp_pool 0 (show (TxOp.removeLiquidity _).poolToken = some t from rfl), hst, hstep]
    refine ⟨_, rfl, ?_⟩
    rw [getPool, AList.lookup_insert, Pool.burnAll, Pool.burnAll, List.foldl_append]
    rfl
  · obtain ⟨hd, hshares⟩ := hsolvent.drained.burnAll hs (by omega)
    refine ⟨UInt64.toNat.inj ?_, hd.solvent.qnt, hd.solvent.tok⟩
    rw [hshares]
    omega

omit [Crypto] in
/-- The pool of a market, and two holders. -/
theorem withdraw_any_order_market :
    (Pool.burnAll ⟨9, 3638000, 1100000, 2000000⟩ [1000000, 999000]).shares = minLiquidity := by
  let _ := plainCrypto
  have hp : (LedgerView.act 0 { base := marketReader } (.apply marketTx 2 false)).1.pool 9 =
      some ⟨9, 3638000, 1100000, 2000000⟩ := by decide +kernel
  have hv : Traded 0 (LedgerView.act 0 { base := marketReader } (.apply marketTx 2 false)).1 :=
    (Traded.start fun _ => rfl).act _
  exact (withdraw_any_order hv hp [1000000, 999000] (by decide)).2.1

end QuantCore
