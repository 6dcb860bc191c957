import QuantCore.Crypto.Instances
import QuantCore.Proofs.OverlayRun
import QuantCore.Proofs.Quote
import Mathlib.Tactic.Ring

/-!
# Pools stay solvent

A pool's shares are backed: their square is at most the product of the
reserves. Creation makes them so, by an integer square root rounded down; a
deposit mints at most its proportion of the smaller side, a withdrawal takes at
most its proportion of either side, and a trade leaves the product at least as
large, all by divisions rounded down in the pool's favour. With the shares that
are locked for ever this keeps both reserves above zero, so no subtraction of
the op code goes below it, and what one share stands for never falls.
-/

namespace QuantCore

open Maps

/-! ## The AMM's divisions -/

/-- A quotient rounded down. -/
theorem mulDiv_le (a b c : Amount) :
    (mulDiv a b c).toNat * c.toNat ≤ a.toNat * b.toNat := by
  have hz : (0 : Amount).toNat = 0 := rfl
  rw [mulDiv]
  split
  · rw [hz]
    omega
  · simp only []
    split
    · rw [hz]
      omega
    · have hle : (UInt64.ofNat (a.toNat * b.toNat / c.toNat)).toNat ≤
          a.toNat * b.toNat / c.toNat := by
        rw [UInt64.toNat_ofNat']
        exact Nat.mod_le _ _
      calc _ ≤ a.toNat * b.toNat / c.toNat * c.toNat := Nat.mul_le_mul_right _ hle
        _ ≤ a.toNat * b.toNat := Nat.div_mul_le_self ..

theorem sqrtDown_sq_le (n x : Nat) : sqrtDown n x * sqrtDown n x ≤ n := by
  induction x with
  | zero => exact Nat.zero_le _
  | succ x ih =>
      rw [sqrtDown]
      split
      · exact ih
      · omega

/-- The square of the first shares is at most the product of the reserves. -/
theorem ammInitialShares_sq_le (qnt tok : Amount) :
    (ammInitialShares qnt tok).toNat * (ammInitialShares qnt tok).toNat ≤
      qnt.toNat * tok.toNat := by
  rw [ammInitialShares]
  simp only []
  split
  · exact Nat.zero_le _
  · have hle : ∀ m : Nat, (UInt64.ofNat m).toNat ≤ m := by
      intro m
      rw [UInt64.toNat_ofNat']
      exact Nat.mod_le _ _
    exact (Nat.mul_le_mul (hle _) (hle _)).trans (sqrtDown_sq_le ..)

/-! ## Solvency of one pool -/

structure Pool.Solvent (p : Pool) : Prop where
  qnt : 1 ≤ p.qnt.toNat
  tok : 1 ≤ p.tok.toNat
  shares : minLiquidity.toNat ≤ p.shares.toNat
  backed : p.shares.toNat ^ 2 ≤ p.qnt.toNat * p.tok.toNat

/-- What a share of `p` stands for is no more than what a share of `p'` does:
the product of the reserves over the square of the shares has not fallen. -/
def Pool.Keeps (p p' : Pool) : Prop :=
  p.qnt.toNat * p.tok.toNat * p'.shares.toNat ^ 2 ≤
    p'.qnt.toNat * p'.tok.toNat * p.shares.toNat ^ 2

/-- The effect of a pool op as sums of natural numbers: nothing wrapped. -/
def TxOp.Exact : TxOp → Option Pool → Pool → Prop
  | .poolCreate c, none, p' =>
      p'.qnt = c.qnt ∧ p'.tok = c.tok ∧
        p'.shares.toNat = c.shares.toNat + minLiquidity.toNat
  | .addLiquidity a, some p, p' =>
      p'.qnt.toNat = p.qnt.toNat + a.qnt.toNat ∧ p'.tok.toNat = p.tok.toNat + a.tok.toNat ∧
        p'.shares.toNat = p.shares.toNat + a.shares.toNat
  | .removeLiquidity r, some p, p' =>
      p'.qnt.toNat + r.qnt.toNat = p.qnt.toNat ∧ p'.tok.toNat + r.tok.toNat = p.tok.toNat ∧
        p'.shares.toNat + r.shares.toNat = p.shares.toNat
  | .swap s, some p, p' =>
      p'.shares = p.shares ∧
        if s.sell then
          p'.tok.toNat = p.tok.toNat + s.amountIn.toNat ∧
            p'.qnt.toNat + s.amountOut.toNat = p.qnt.toNat
        else
          p'.qnt.toNat = p.qnt.toNat + s.amountIn.toNat ∧
            p'.tok.toNat + s.amountOut.toNat = p.tok.toNat
  | _, _, _ => False

/-- Neither side's reserve per share falls when shares come or go, and the
product does not fall in a trade. -/
def TxOp.Fair : TxOp → Pool → Pool → Prop
  | .swap _, p, p' => p.qnt.toNat * p.tok.toNat ≤ p'.qnt.toNat * p'.tok.toNat
  | _, p, p' =>
      p.qnt.toNat * p'.shares.toNat ≤ p'.qnt.toNat * p.shares.toNat ∧
        p.tok.toNat * p'.shares.toNat ≤ p'.tok.toNat * p.shares.toNat

theorem Pool.Keeps.refl (p : Pool) : p.Keeps p := Nat.le_refl _

theorem Pool.Keeps.trans {p q r : Pool} (hq : q.Solvent) (h₁ : p.Keeps q) (h₂ : q.Keeps r) :
    p.Keeps r := by
  have hs : 0 < q.shares.toNat ^ 2 := by
    have h := hq.shares
    have hmin : minLiquidity.toNat = 1000 := rfl
    exact Nat.pow_pos (by omega)
  have hqt : 0 < q.qnt.toNat * q.tok.toNat := Nat.mul_pos hq.qnt hq.tok
  have hprod := Nat.mul_le_mul h₁ h₂
  have hcancel : q.qnt.toNat * q.tok.toNat * q.shares.toNat ^ 2 *
        (p.qnt.toNat * p.tok.toNat * r.shares.toNat ^ 2) ≤
      q.qnt.toNat * q.tok.toNat * q.shares.toNat ^ 2 *
        (r.qnt.toNat * r.tok.toNat * p.shares.toNat ^ 2) := by
    calc _ = p.qnt.toNat * p.tok.toNat * q.shares.toNat ^ 2 *
          (q.qnt.toNat * q.tok.toNat * r.shares.toNat ^ 2) := by ring
      _ ≤ _ := hprod
      _ = _ := by ring
  exact Nat.le_of_mul_le_mul_left hcancel (Nat.mul_pos hqt hs)

/-- When neither reserve per share falls, neither does their product. -/
theorem Pool.keeps_of_sides {p p' : Pool}
    (hq : p.qnt.toNat * p'.shares.toNat ≤ p'.qnt.toNat * p.shares.toNat)
    (ht : p.tok.toNat * p'.shares.toNat ≤ p'.tok.toNat * p.shares.toNat) : p.Keeps p' := by
  calc p.qnt.toNat * p.tok.toNat * p'.shares.toNat ^ 2
      = p.qnt.toNat * p'.shares.toNat * (p.tok.toNat * p'.shares.toNat) := by ring
    _ ≤ p'.qnt.toNat * p.shares.toNat * (p'.tok.toNat * p.shares.toNat) := Nat.mul_le_mul hq ht
    _ = p'.qnt.toNat * p'.tok.toNat * p.shares.toNat ^ 2 := by ring

/-- Backing goes from a pool to one whose shares are worth as much. -/
theorem Pool.Solvent.backed_of_keeps {p p' : Pool} (h : p.Solvent) (hk : p.Keeps p') :
    p'.shares.toNat ^ 2 ≤ p'.qnt.toNat * p'.tok.toNat := by
  have hs : 0 < p.shares.toNat ^ 2 := by
    have hmin : minLiquidity.toNat = 1000 := rfl
    have := h.shares
    exact Nat.pow_pos (by omega)
  refine Nat.le_of_mul_le_mul_right ?_ hs
  calc p'.shares.toNat ^ 2 * p.shares.toNat ^ 2
      ≤ p'.shares.toNat ^ 2 * (p.qnt.toNat * p.tok.toNat) := Nat.mul_le_mul_left _ h.backed
    _ = p.qnt.toNat * p.tok.toNat * p'.shares.toNat ^ 2 := Nat.mul_comm ..
    _ ≤ p'.qnt.toNat * p'.tok.toNat * p.shares.toNat ^ 2 := hk

theorem add_toNat_of_le {a b m : Amount} (h : ¬ a.toNat + b.toNat > m.toNat) :
    (a + b).toNat = a.toNat + b.toNat := by
  have := m.toNat_lt
  rw [UInt64.toNat_add, Nat.mod_eq_of_lt (by omega)]

theorem sub_toNat_of_le {a b : Amount} (h : b.toNat ≤ a.toNat) :
    (a - b).toNat = a.toNat - b.toNat :=
  UInt64.toNat_sub_of_le a b (UInt64.le_iff_toNat_le.mpr h)

/-! ## One op -/

/-- What an accepted pool op makes of a solvent pool. -/
structure TxOp.Sound (op : TxOp) (old : Option Pool) (p' : Pool) : Prop where
  solvent : p'.Solvent
  exact : op.Exact old p'
  keeps : ∀ p, old = some p → p.Keeps p'
  fair : ∀ p, old = some p → op.Fair p p'

theorem poolCreate_sound {known : Bool} {c : OpPoolCreate} {old : Option Pool} {p' : Pool}
    (h : poolStep known (.poolCreate c) old = .ok p') : TxOp.Sound (.poolCreate c) old p' := by
  simp only [poolStep] at h
  split at h
  · cases h
  split at h
  · cases h
  next hnone =>
  split at h
  · cases h
  split at h
  · cases h
  next hshares =>
  cases h
  have hold : old = none := by simpa using hnone
  subst hold
  have hmin : minLiquidity.toNat = 1000 := rfl
  simp only [not_or, UInt64.lt_iff_toNat_lt, gt_iff_lt, UInt64.le_iff_toNat_le, Nat.not_le,
    Nat.not_lt] at hshares
  obtain ⟨htotal, hle⟩ := hshares
  rw [sub_toNat_of_le (by omega)] at hle
  have hsq := ammInitialShares_sq_le c.qnt c.tok
  have hlt := (ammInitialShares c.qnt c.tok).toNat_lt
  have hsum : (c.shares + minLiquidity).toNat = c.shares.toNat + minLiquidity.toNat := by
    rw [UInt64.toNat_add, Nat.mod_eq_of_lt (by omega)]
  have hback : (c.shares + minLiquidity).toNat ^ 2 ≤ c.qnt.toNat * c.tok.toNat := by
    rw [hsum, Nat.pow_two]
    exact (Nat.mul_le_mul (by omega) (by omega)).trans hsq
  have hpos : 0 < c.qnt.toNat * c.tok.toNat :=
    Nat.lt_of_lt_of_le (Nat.pow_pos (by omega)) hback
  exact
    { solvent :=
        { qnt := Nat.pos_of_mul_pos_right hpos
          tok := Nat.pos_of_mul_pos_left hpos
          shares := by
            show _ ≤ (c.shares + minLiquidity).toNat
            omega
          backed := hback }
      exact := ⟨rfl, rfl, hsum⟩
      keeps := fun p hp => by cases hp
      fair := fun p hp => by cases hp }

theorem addLiquidity_sound {known : Bool} {a : OpAddLiquidity} {p p' : Pool}
    (hp : p.Solvent) (h : poolStep known (.addLiquidity a) (some p) = .ok p') :
    TxOp.Sound (.addLiquidity a) (some p) p' := by
  simp only [poolStep] at h
  split at h
  · cases h
  next hshares =>
  split at h
  · cases h
  next hsize =>
  cases h
  simp only [not_or] at hsize
  obtain ⟨hq, ht, hs⟩ := hsize
  have hq' := add_toNat_of_le hq
  have ht' := add_toNat_of_le ht
  have hs' := add_toNat_of_le hs
  -- The new shares are at most the deposit's proportion of each side.
  have hprop : a.shares.toNat * p.qnt.toNat ≤ a.qnt.toNat * p.shares.toNat ∧
      a.shares.toNat * p.tok.toNat ≤ a.tok.toNat * p.shares.toNat := by
    have hmq := mulDiv_le a.qnt p.shares p.qnt
    have hmt := mulDiv_le a.tok p.shares p.tok
    rw [gt_iff_lt, UInt64.not_lt, UInt64.le_iff_toNat_le, ammAddShares] at hshares
    split at hshares
    · have hz : a.shares.toNat = 0 := Nat.le_zero.mp hshares
      rw [hz]
      omega
    · simp only [] at hshares
      split at hshares
      · next hlt =>
          rw [UInt64.lt_iff_toNat_lt] at hlt
          exact ⟨(Nat.mul_le_mul_right _ hshares).trans hmq,
            (Nat.mul_le_mul_right _ (hshares.trans hlt.le)).trans hmt⟩
      · next hge =>
          rw [UInt64.lt_iff_toNat_lt, Nat.not_lt] at hge
          exact ⟨(Nat.mul_le_mul_right _ (hshares.trans hge)).trans hmq,
            (Nat.mul_le_mul_right _ hshares).trans hmt⟩
  have hside : p.qnt.toNat * (p.shares + a.shares).toNat ≤
        (p.qnt + a.qnt).toNat * p.shares.toNat ∧
      p.tok.toNat * (p.shares + a.shares).toNat ≤
        (p.tok + a.tok).toNat * p.shares.toNat := by
    rw [hq', ht', hs']
    constructor
    · calc p.qnt.toNat * (p.shares.toNat + a.shares.toNat)
          = p.qnt.toNat * p.shares.toNat + a.shares.toNat * p.qnt.toNat := by ring
        _ ≤ p.qnt.toNat * p.shares.toNat + a.qnt.toNat * p.shares.toNat :=
            Nat.add_le_add_left hprop.1 _
        _ = (p.qnt.toNat + a.qnt.toNat) * p.shares.toNat := by ring
    · calc p.tok.toNat * (p.shares.toNat + a.shares.toNat)
          = p.tok.toNat * p.shares.toNat + a.shares.toNat * p.tok.toNat := by ring
        _ ≤ p.tok.toNat * p.shares.toNat + a.tok.toNat * p.shares.toNat :=
            Nat.add_le_add_left hprop.2 _
        _ = (p.tok.toNat + a.tok.toNat) * p.shares.toNat := by ring
  have hkeeps : p.Keeps { p with
      qnt := p.qnt + a.qnt, tok := p.tok + a.tok, shares := p.shares + a.shares } :=
    Pool.keeps_of_sides hside.1 hside.2
  have h₁ := hp.qnt
  have h₂ := hp.tok
  have h₃ := hp.shares
  exact
    { solvent :=
        { qnt := by show _ ≤ (p.qnt + a.qnt).toNat; omega
          tok := by show _ ≤ (p.tok + a.tok).toNat; omega
          shares := by show _ ≤ (p.shares + a.shares).toNat; omega
          backed := hp.backed_of_keeps hkeeps }
      exact := ⟨hq', ht', hs'⟩
      keeps := fun q hq => by cases hq; exact hkeeps
      fair := fun q hq => by cases hq; exact hside }

/-- A withdrawal takes at most its proportion of a side, and leaves some of it. -/
theorem remove_side {r q s S : Amount} (hS : s.toNat < S.toNat) (hq : 1 ≤ q.toNat)
    (hr : r.toNat ≤ (mulDiv s q S).toNat) :
    r.toNat ≤ q.toNat ∧ 1 ≤ q.toNat - r.toNat ∧
      q.toNat * (S.toNat - s.toNat) ≤ (q.toNat - r.toNat) * S.toNat := by
  have hm : r.toNat * S.toNat ≤ s.toNat * q.toNat :=
    (Nat.mul_le_mul_right _ hr).trans (mulDiv_le s q S)
  have hlt : r.toNat * S.toNat < q.toNat * S.toNat := by
    calc r.toNat * S.toNat ≤ s.toNat * q.toNat := hm
      _ = q.toNat * s.toNat := Nat.mul_comm ..
      _ < q.toNat * S.toNat := Nat.mul_lt_mul_of_pos_left hS (by omega)
  have hle : r.toNat < q.toNat := Nat.lt_of_mul_lt_mul_right hlt
  refine ⟨hle.le, by omega, ?_⟩
  rw [Nat.mul_sub, Nat.sub_mul, Nat.mul_comm q.toNat s.toNat]
  omega

theorem removeLiquidity_sound {known : Bool} {r : OpRemoveLiquidity} {p p' : Pool}
    (hp : p.Solvent) (h : poolStep known (.removeLiquidity r) (some p) = .ok p') :
    TxOp.Sound (.removeLiquidity r) (some p) p' := by
  simp only [poolStep] at h
  split at h
  · cases h
  next hshares =>
  split at h
  · cases h
  next hamounts =>
  cases h
  have hmin : minLiquidity.toNat = 1000 := rfl
  have hS := hp.shares
  rw [gt_iff_lt, UInt64.not_lt, UInt64.le_iff_toNat_le, sub_toNat_of_le hS] at hshares
  simp only [not_or, gt_iff_lt, UInt64.not_lt, UInt64.le_iff_toNat_le, ammRemoveAmounts]
    at hamounts
  obtain ⟨hq₁, hq₂, hq₃⟩ := remove_side (by omega) hp.qnt hamounts.1
  obtain ⟨ht₁, ht₂, ht₃⟩ := remove_side (by omega) hp.tok hamounts.2
  have hq' := sub_toNat_of_le hq₁
  have ht' := sub_toNat_of_le ht₁
  have hs' : (p.shares - r.shares).toNat = p.shares.toNat - r.shares.toNat :=
    sub_toNat_of_le (by omega)
  have hside : p.qnt.toNat * (p.shares - r.shares).toNat ≤
        (p.qnt - r.qnt).toNat * p.shares.toNat ∧
      p.tok.toNat * (p.shares - r.shares).toNat ≤
        (p.tok - r.tok).toNat * p.shares.toNat := by
    rw [hq', ht', hs']
    exact ⟨hq₃, ht₃⟩
  have hkeeps : p.Keeps { p with
      qnt := p.qnt - r.qnt, tok := p.tok - r.tok, shares := p.shares - r.shares } :=
    Pool.keeps_of_sides hside.1 hside.2
  exact
    { solvent :=
        { qnt := by show _ ≤ (p.qnt - r.qnt).toNat; omega
          tok := by show _ ≤ (p.tok - r.tok).toNat; omega
          shares := by show _ ≤ (p.shares - r.shares).toNat; omega
          backed := hp.backed_of_keeps hkeeps }
      exact := ⟨by show (p.qnt - r.qnt).toNat + _ = _; omega,
        by show (p.tok - r.tok).toNat + _ = _; omega,
        by show (p.shares - r.shares).toNat + _ = _; omega⟩
      keeps := fun q hq => by cases hq; exact hkeeps
      fair := fun q hq => by cases hq; exact hside }

/-- A trade at or below the quote does not lower the product. -/
theorem swap_side {i o rin rout : Amount} (hlt : o.toNat < rout.toNat)
    (ho : o.toNat ≤ (ammQuote i rin rout).toNat) :
    rin.toNat * rout.toNat ≤ (rin.toNat + i.toNat) * (rout.toNat - o.toNat) := by
  have hq : o.toNat * (rin.toNat * 10000 + i.toNat * 9970) ≤ i.toNat * 9970 * rout.toNat :=
    (Nat.mul_le_mul_right _ ho).trans (ammQuote_le i rin rout)
  obtain ⟨d, hd⟩ : ∃ d, rout.toNat = o.toNat + d := ⟨rout.toNat - o.toNat, by omega⟩
  rw [hd] at hq ⊢
  rw [Nat.add_sub_cancel_left]
  have hfee : o.toNat * rin.toNat * 10000 ≤ i.toNat * 9970 * d := by
    have hexp : o.toNat * (rin.toNat * 10000 + i.toNat * 9970) =
        o.toNat * rin.toNat * 10000 + i.toNat * 9970 * o.toNat := by ring
    have hexp' : i.toNat * 9970 * (o.toNat + d) =
        i.toNat * 9970 * o.toNat + i.toNat * 9970 * d := by ring
    omega
  have hin : i.toNat * 9970 * d ≤ i.toNat * d * 10000 := by
    calc i.toNat * 9970 * d = i.toNat * d * 9970 := by ring
      _ ≤ i.toNat * d * 10000 := Nat.mul_le_mul_left _ (by decide)
  have hmain : o.toNat * rin.toNat ≤ i.toNat * d := by omega
  calc rin.toNat * (o.toNat + d) = o.toNat * rin.toNat + rin.toNat * d := by ring
    _ ≤ i.toNat * d + rin.toNat * d := Nat.add_le_add_right hmain _
    _ = (rin.toNat + i.toNat) * d := by ring

theorem swap_sound {known : Bool} {s : OpSwap} {p p' : Pool} (hp : p.Solvent)
    (h : poolStep known (.swap s) (some p) = .ok p') :
    TxOp.Sound (.swap s) (some p) p' := by
  have h₁ := hp.qnt
  have h₂ := hp.tok
  simp only [poolStep] at h
  -- The two directions differ in the sides' names only.
  split at h
  · next hsell =>
      split at h
      · cases h
      next hprice =>
      split at h
      · cases h
      next hsize =>
      cases h
      simp only [not_or, ge_iff_le, gt_iff_lt, UInt64.lt_iff_toNat_lt, UInt64.le_iff_toNat_le,
        Nat.not_le, Nat.not_lt] at hprice
      have hin := add_toNat_of_le hsize
      have hout := sub_toNat_of_le hprice.1.le
      have hprod := swap_side hprice.1 hprice.2
      have hfair : p.qnt.toNat * p.tok.toNat ≤
          (p.qnt - s.amountOut).toNat * (p.tok + s.amountIn).toNat := by
        rw [hin, hout, Nat.mul_comm p.qnt.toNat, Nat.mul_comm (p.qnt.toNat - _)]
        exact hprod
      have hkeeps : p.Keeps { p with tok := p.tok + s.amountIn, qnt := p.qnt - s.amountOut } :=
        Nat.mul_le_mul_right _ hfair
      exact
        { solvent :=
            { qnt := by show _ ≤ (p.qnt - s.amountOut).toNat; omega
              tok := by show _ ≤ (p.tok + s.amountIn).toNat; omega
              shares := hp.shares
              backed := hp.backed_of_keeps hkeeps }
          exact := by
            refine ⟨rfl, ?_⟩
            rw [if_pos hsell]
            refine ⟨hin, ?_⟩
            show (p.qnt - s.amountOut).toNat + _ = _
            omega
          keeps := fun q hq => by cases hq; exact hkeeps
          fair := fun q hq => by cases hq; exact hfair }
  · next hbuy =>
      split at h
      · cases h
      next hprice =>
      split at h
      · cases h
      next hsize =>
      cases h
      simp only [not_or, ge_iff_le, gt_iff_lt, UInt64.lt_iff_toNat_lt, UInt64.le_iff_toNat_le,
        Nat.not_le, Nat.not_lt] at hprice
      have hin := add_toNat_of_le hsize
      have hout := sub_toNat_of_le hprice.1.le
      have hprod := swap_side hprice.1 hprice.2
      have hfair : p.qnt.toNat * p.tok.toNat ≤
          (p.qnt + s.amountIn).toNat * (p.tok - s.amountOut).toNat := by
        rw [hin, hout]
        exact hprod
      have hkeeps : p.Keeps { p with qnt := p.qnt + s.amountIn, tok := p.tok - s.amountOut } :=
        Nat.mul_le_mul_right _ hfair
      exact
        { solvent :=
            { qnt := by show _ ≤ (p.qnt + s.amountIn).toNat; omega
              tok := by show _ ≤ (p.tok - s.amountOut).toNat; omega
              shares := hp.shares
              backed := hp.backed_of_keeps hkeeps }
          exact := by
            refine ⟨rfl, ?_⟩
            rw [if_neg hbuy]
            refine ⟨hin, ?_⟩
            show (p.tok - s.amountOut).toNat + _ = _
            omega
          keeps := fun q hq => by cases hq; exact hkeeps
          fair := fun q hq => by cases hq; exact hfair }

/-- Every pool op, on the pool it finds. -/
theorem poolStep_sound {known : Bool} {op : TxOp} {t : Hash256} {old : Option Pool} {p' : Pool}
    (hop : op.poolToken = some t) (hold : ∀ p, old = some p → p.Solvent)
    (h : poolStep known op old = .ok p') : op.Sound old p' := by
  cases op with
  | createToken c => cases hop
  | message m => cases hop
  | poolCreate c => exact poolCreate_sound h
  | addLiquidity a =>
      cases old with
      | none => cases h
      | some p => exact addLiquidity_sound (hold p rfl) h
  | removeLiquidity r =>
      cases old with
      | none => cases h
      | some p => exact removeLiquidity_sound (hold p rfl) h
  | swap s =>
      cases old with
      | none => cases h
      | some p => exact swap_sound (hold p rfl) h

/-! ## The ops of a transaction -/

variable [Crypto]

/-- Every pool the state shows is solvent. -/
def StateReader.Solvent (r : StateReader) : Prop := ∀ t p, r.pool t = some p → p.Solvent

/-- The pools as the ops so far leave them. -/
def OpState.Solvent (r : StateReader) (st : OpState) : Prop :=
  ∀ t p, getPool r st t = some p → p.Solvent

omit [Crypto] in
/-- Before the first op no pool has a scratch copy. -/
theorem StateReader.Solvent.start {r : StateReader} (h : r.Solvent) (plus minus : Flows) :
    OpState.Solvent r ⟨plus, minus, ∅, ∅⟩ := h

/-- An op on a pool works on that pool; any other op touches none. -/
theorem applyOp_sound {r : StateReader} {tx : Transaction} {height : UInt64}
    {coins : List Coin} {i : UInt32} {st st' : OpState} {op : TxOp} (hs : st.Solvent r)
    (h : applyOp r tx height coins i st op = .ok st') :
    (∀ t, op.poolToken = some t →
      ∃ p', getPool r st' t = some p' ∧ op.Sound (getPool r st t) p') ∧
    ∀ u, op.poolToken ≠ some u → getPool r st' u = getPool r st u := by
  cases ht : op.poolToken with
  | none =>
      refine ⟨fun t h => (nomatch h), fun u _ => ?_⟩
      have htouched : st'.touched = st.touched := by
        cases op with
        | createToken c =>
            simp only [applyOp] at h
            split at h
            · cases h
            · cases h
              rfl
        | message m =>
            simp only [applyOp] at h
            split at h
            · cases h
              rfl
            · cases h
        | _ => cases ht
      rw [getPool, getPool, htouched]
  | some t =>
      rw [applyOp_pool 0 ht] at h
      cases hp : poolStep (tokenKnown r st t) op (getPool r st t) with
      | error e => rw [hp] at h; cases h
      | ok p' =>
          rw [hp] at h
          cases h
          refine ⟨fun u hu => ?_, fun u hu => ?_⟩
          · cases hu
            refine ⟨p', ?_, poolStep_sound ht (hs t) hp⟩
            rw [getPool, AList.lookup_insert]
          · have hne : u ≠ t := fun he => hu (by rw [he])
            rw [getPool, AList.lookup_insert_ne hne]
            rfl

/-- What is worth something before is worth no less after. -/
def PoolsKeep (f g : Hash256 → Option Pool) : Prop :=
  ∀ t p, f t = some p → ∃ p', g t = some p' ∧ p.Keeps p'

omit [Crypto] in
theorem PoolsKeep.refl (f : Hash256 → Option Pool) : PoolsKeep f f :=
  fun _ p hp => ⟨p, hp, Pool.Keeps.refl p⟩

omit [Crypto] in
theorem PoolsKeep.trans {f g k : Hash256 → Option Pool}
    (hg : ∀ t p, g t = some p → p.Solvent) (h₁ : PoolsKeep f g) (h₂ : PoolsKeep g k) :
    PoolsKeep f k := by
  intro t p hp
  obtain ⟨q, hq, hpq⟩ := h₁ t p hp
  obtain ⟨q', hq', hqq⟩ := h₂ t q hq
  exact ⟨q', hq', hpq.trans (hg t q hq) hqq⟩

theorem applyOp_keeps {r : StateReader} {tx : Transaction} {height : UInt64}
    {coins : List Coin} {i : UInt32} {st st' : OpState} {op : TxOp} (hs : st.Solvent r)
    (h : applyOp r tx height coins i st op = .ok st') :
    st'.Solvent r ∧ PoolsKeep (getPool r st) (getPool r st') := by
  obtain ⟨hop, hrest⟩ := applyOp_sound hs h
  constructor
  · intro t p hp
    by_cases ht : op.poolToken = some t
    · obtain ⟨p', hp', hsound⟩ := hop t ht
      rw [hp'] at hp
      cases hp
      exact hsound.solvent
    · rw [hrest t ht] at hp
      exact hs t p hp
  · intro t p hp
    by_cases ht : op.poolToken = some t
    · obtain ⟨p', hp', hsound⟩ := hop t ht
      exact ⟨p', hp', hsound.keeps p hp⟩
    · exact ⟨p, (hrest t ht).trans hp, Pool.Keeps.refl p⟩

theorem applyOps_keeps {r : StateReader} {tx : Transaction} {height : UInt64}
    {coins : List Coin} {i : UInt32} {ops : List TxOp} {st st' : OpState} (hs : st.Solvent r)
    (h : applyOps r tx height coins i ops st = .ok st') :
    st'.Solvent r ∧ PoolsKeep (getPool r st) (getPool r st') := by
  induction ops generalizing i st with
  | nil =>
      cases h
      exact ⟨hs, PoolsKeep.refl _⟩
  | cons op ops ih =>
      rw [applyOps] at h
      split at h
      · cases h
      next st₁ h₁ =>
      obtain ⟨hs₁, hk₁⟩ := applyOp_keeps hs h₁
      obtain ⟨hs₂, hk₂⟩ := ih hs₁ h
      exact ⟨hs₂, hk₁.trans hs₁ hk₂⟩

/-! ## Transactions on a view -/

namespace LedgerView

theorem run_base (genesis : Hash256) (v : LedgerView) (acts : List LedgerAct) :
    (v.run genesis acts).1.base = v.base := by
  induction acts generalizing v with
  | nil => rfl
  | cons a acts ih =>
      refine (ih (v.act genesis a).1).trans ?_
      cases a with
      | coinbase tx height => rfl
      | apply tx height verifySigs =>
          simp only [act, apply]
          split
          · rfl
          · exact commit_base ..

theorem act_keeps {v : LedgerView} (hv : v.reader.Solvent) (genesis : Hash256)
    (a : LedgerAct) :
    (v.act genesis a).1.reader.Solvent ∧ PoolsKeep v.pool (v.act genesis a).1.pool := by
  cases a with
  | coinbase tx height => exact ⟨hv, PoolsKeep.refl v.pool⟩
  | apply tx height verifySigs =>
      simp only [act, apply]
      split
      · exact ⟨hv, PoolsKeep.refl v.pool⟩
      next st fee hc =>
      obtain ⟨-, -, coins, -, hops, -⟩ := checkTx_ok hc
      have hpool := commit_pool v tx height (checkTx_settled hc).touched_some
      obtain ⟨hs, hk⟩ := applyOps_keeps (hv.start _ _) hops
      refine ⟨fun t p hp => hs t p ?_, ?_⟩
      · rw [← hpool]
        exact hp
      · rw [hpool]
        exact hk

theorem run_keeps {v : LedgerView} (hv : v.reader.Solvent) (genesis : Hash256)
    (acts : List LedgerAct) :
    (v.run genesis acts).1.reader.Solvent ∧ PoolsKeep v.pool (v.run genesis acts).1.pool := by
  induction acts generalizing v with
  | nil => exact ⟨hv, PoolsKeep.refl v.pool⟩
  | cons a acts ih =>
      obtain ⟨hs₁, hk₁⟩ := act_keeps hv genesis a
      obtain ⟨hs₂, hk₂⟩ := ih hs₁
      exact ⟨hs₂, hk₁.trans hs₁ hk₂⟩

end LedgerView

/-- The views whose pools all come from ops: a view over a state without pools,
one more transaction, and a new view over any state with the pools of an earlier
one, as when a block has been committed, or taken back, or a second view is put
over the first. -/
inductive Traded (genesis : Hash256) : LedgerView → Prop
  | start {base : StateReader} (h : ∀ t, base.pool t = none) :
      Traded genesis { base := base }
  | act {v : LedgerView} (hv : Traded genesis v) (a : LedgerAct) :
      Traded genesis (v.act genesis a).1
  | rebase {v : LedgerView} {base : StateReader} (hv : Traded genesis v)
      (h : ∀ t, base.pool t = v.pool t) : Traded genesis { base := base }

theorem Traded.solvent {genesis : Hash256} {v : LedgerView} (hv : Traded genesis v) :
    v.reader.Solvent := by
  induction hv with
  | start h =>
      intro t p hp
      have hn : _ = some p := hp
      rw [LedgerView.reader_mk, h t] at hn
      cases hn
  | act hv a ih => exact (LedgerView.act_keeps ih genesis a).1
  | rebase hv h ih =>
      intro t p hp
      rw [LedgerView.reader_mk, h t] at hp
      exact ih t p hp

theorem Traded.run {genesis : Hash256} {v : LedgerView} (hv : Traded genesis v)
    (acts : List LedgerAct) : Traded genesis (v.run genesis acts).1 := by
  induction acts generalizing v with
  | nil => exact hv
  | cons a acts ih => exact ih (hv.act a)

/-- Connecting a block makes its transactions' trades part of the state. -/
theorem Traded.connectBlock {cfg : Config} {s s' : Chainstate} {idx : Hash256}
    (hs : Traded cfg.params.genesisHash { base := s.reader })
    (h : s.connectBlock cfg idx = (s', .ok ())) :
    Traded cfg.params.genesisHash { base := s'.reader } := by
  obtain ⟨b, got, v, fees, -, -, -, hview, -, -, rfl⟩ := Chainstate.connectBlock_ok h
  have hv := blockView_run hview
  have hb : v.base = s.reader := by
    rw [← hv]
    exact LedgerView.run_base ..
  refine Traded.rebase (hs.run (blockActs b (UInt64.ofNat (s.entry idx).height)
    (got && (s.entry idx).height > 0))) fun t => ?_
  rw [hv, Chainstate.commitBlock_reader]
  exact congrFun (Chainstate.commitView_pools hb) t

/-- Every pool is solvent, before a transaction and after each of its ops; an
accepted op does exactly its sums and is fair to the holders of shares; and
over any further calls no pool disappears and no share loses value. -/
theorem pool_solvency {genesis : Hash256} {v : LedgerView} (hv : Traded genesis v) :
    (∀ t p, v.pool t = some p → p.Solvent) ∧
    (∀ tx height coins i ops plus minus st,
      applyOps v.reader tx height coins i ops ⟨plus, minus, ∅, ∅⟩ = .ok st →
      (∀ t p, getPool v.reader st t = some p → p.Solvent) ∧
      ∀ j op st', applyOp v.reader tx height coins j st op = .ok st' →
        (∀ t, op.poolToken = some t →
          ∃ p', getPool v.reader st' t = some p' ∧
            op.Sound (getPool v.reader st t) p') ∧
        ∀ u, op.poolToken ≠ some u → getPool v.reader st' u = getPool v.reader st u) ∧
    ∀ acts t p, v.pool t = some p →
      ∃ p', (v.run genesis acts).1.pool t = some p' ∧ p'.Solvent ∧ p.Keeps p' := by
  have hs := hv.solvent
  refine ⟨hs, ?_, ?_⟩
  · intro tx height coins i ops plus minus st hops
    have hst := (applyOps_keeps (hs.start _ _) hops).1
    exact ⟨hst, fun j op st' hop => applyOp_sound hst hop⟩
  · intro acts t p hp
    obtain ⟨hs', hk⟩ := LedgerView.run_keeps hs genesis acts
    obtain ⟨p', hp', hkeeps⟩ := hk t p hp
    exact ⟨p', hp', hs' t p' hp', hkeeps⟩

/-! ## A pool created and traded in one transaction -/

def marketReader : StateReader where
  coin := fun o =>
    if o = ⟨1, 0⟩ then some ⟨⟨5000000, qntAsset, 7⟩, 1, false⟩
    else if o = ⟨1, 1⟩ then some ⟨⟨4000000, 9, 7⟩, 1, false⟩
    else none
  token := fun t => if t = 9 then some ⟨9, [0x41], [0x41], [], 0, 4000000, 1, 1⟩ else none
  pool := fun _ => none

def marketTx : Transaction where
  ins := [⟨⟨1, 0⟩⟩, ⟨⟨1, 1⟩⟩]
  ops := [.poolCreate ⟨9, 4000000, 1000000, 1999000⟩, .swap ⟨9, true, 100000, 362000⟩]
  outs := [⟨1360000, qntAsset, 7⟩, ⟨2900000, 9, 7⟩, ⟨1999000, poolShareId 9, 7⟩]

omit [Crypto] in
theorem pool_solvency_market :
    letI := plainCrypto
    (LedgerView.act 0 { base := marketReader } (.apply marketTx 2 false)).1.pool 9 =
        some ⟨9, 3638000, 1100000, 2000000⟩ ∧
      Pool.Solvent ⟨9, 3638000, 1100000, 2000000⟩ := by
  let _ := plainCrypto
  have hp : (LedgerView.act 0 { base := marketReader } (.apply marketTx 2 false)).1.pool 9 =
      some ⟨9, 3638000, 1100000, 2000000⟩ := by decide +kernel
  have hv : Traded 0 (LedgerView.act 0 { base := marketReader } (.apply marketTx 2 false)).1 :=
    (Traded.start fun _ => rfl).act _
  exact ⟨hp, (pool_solvency hv).1 9 _ hp⟩

end QuantCore
