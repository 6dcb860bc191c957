import QuantCore.Consensus.Ledger
import QuantCore.Lib.Swap
import QuantCore.Proofs.Arith

/-!
# Quotes

`amm_quote` is what a constant product pays out with a fee of thirty basis
points: the 256-bit multiplication and division it goes through lose nothing.
`amm_quote_in` computes the payment for an amount by one division, rounds up by
adding one in 64 bits and tightens by a loop. It is the least payment that
suffices, but for the one quotient where adding one wraps to zero.
-/

namespace QuantCore

open ConstantProduct

theorem u256_toNat {v : Nat} (h : v < 2 ^ 128) : (u256 v).toNat = v := by
  have hz : (0 : UInt64).toNat = 0 := rfl
  simp only [u256, U256.toNat, UInt64.toNat_ofNat', Nat.shiftRight_eq_div_pow, hz]
  omega

theorem fitsU64_iff {q : U256} : fitsU64 q = true ↔ q.toNat < 2 ^ 64 := by
  have hor : ∀ x y : UInt64, x ||| y = 0 ↔ x = 0 ∧ y = 0 := by
    intro x y
    rw [← UInt64.toNat_inj, ← UInt64.toNat_inj, ← UInt64.toNat_inj, UInt64.toNat_or]
    exact Nat.or_eq_zero_iff
  have h0 := q.w0.toNat_lt
  rw [fitsU64, beq_iff_eq, hor, hor, ← UInt64.toNat_inj, ← UInt64.toNat_inj, ← UInt64.toNat_inj,
    U256.toNat]
  have hz : (0 : UInt64).toNat = 0 := rfl
  rw [hz]
  omega

theorem w0_of_fitsU64 {q : U256} (h : fitsU64 q = true) : q.w0.toNat = q.toNat := by
  have hlt := fitsU64_iff.mp h
  have h0 := q.w0.toNat_lt
  rw [U256.toNat] at hlt ⊢
  omega

theorem ne_zero_iff_toNat {a : Amount} : a ≠ 0 ↔ 0 < a.toNat := by
  rw [Ne, ← UInt64.toNat_inj, Nat.pos_iff_ne_zero]
  rfl

/-! ## The quote -/

/-- The numerator and the denominator of a quote as they are computed. -/
def quoteParts (amountIn rin rout : Amount) : U256 × U256 :=
  let inFee := u256 (amountIn.toNat * (10000 - poolFeeBps.toNat))
  (inFee.mul64 rout, (u256 (rin.toNat * 10000)).add inFee)

theorem quoteParts_toNat (amountIn rin rout : Amount) :
    (quoteParts amountIn rin rout).1.toNat = amountIn.toNat * 9970 * rout.toNat ∧
      (quoteParts amountIn rin rout).2.toNat = rin.toNat * 10000 + amountIn.toNat * 9970 := by
  have hi := amountIn.toNat_lt
  have hri := rin.toNat_lt
  have hro := rout.toNat_lt
  have hfee : 10000 - poolFeeBps.toNat = 9970 := rfl
  have hin : (u256 (amountIn.toNat * 9970)).toNat = amountIn.toNat * 9970 :=
    u256_toNat (by omega)
  have hrin : (u256 (rin.toNat * 10000)).toNat = rin.toNat * 10000 := u256_toNat (by omega)
  rw [quoteParts, hfee]
  constructor
  · rw [U256.mul64_toNat, hin, Nat.mod_eq_of_lt]
    calc amountIn.toNat * 9970 * rout.toNat ≤ 2 ^ 78 * 2 ^ 64 :=
          Nat.mul_le_mul (by omega) (by omega)
      _ < 2 ^ 256 := by decide
  · rw [U256.add_toNat, hin, hrin, Nat.mod_eq_of_lt (by omega)]

theorem quoteParts_div {amountIn rin : Amount} (rout : Amount) (hr : 0 < rin.toNat) :
    ((quoteParts amountIn rin rout).1.div (quoteParts amountIn rin rout).2).toNat =
      out 9970 10000 amountIn.toNat rin.toNat rout.toNat := by
  have hi := amountIn.toNat_lt
  have hri := rin.toNat_lt
  obtain ⟨hnum, hden⟩ := quoteParts_toNat amountIn rin rout
  rw [U256.div_toNat (by rw [hden]; omega), hnum, hden, out]

theorem quoteParts_fits {amountIn rin rout : Amount} (hr : 0 < rin.toNat) :
    fitsU64 ((quoteParts amountIn rin rout).1.div (quoteParts amountIn rin rout).2) = true := by
  rw [fitsU64_iff, quoteParts_div rout hr]
  have hle : out 9970 10000 amountIn.toNat rin.toNat rout.toNat ≤ rout.toNat :=
    out_le (by omega)
  have := rout.toNat_lt
  omega

/-- No step of the computation wraps. -/
theorem ammQuote_toNat {amountIn rin rout : Amount} (hr : 0 < rin.toNat) :
    (ammQuote amountIn rin rout).toNat = out 9970 10000 amountIn.toNat rin.toNat rout.toNat := by
  have hz : (0 : Amount).toNat = 0 := rfl
  rw [ammQuote]
  split
  · next h =>
      rw [hz]
      rcases h with rfl | rfl | rfl
      · rw [out, hz, Nat.zero_mul, Nat.zero_mul, Nat.zero_div]
      · exact absurd hr (by rw [hz]; omega)
      · rw [out, hz, Nat.mul_zero, Nat.zero_div]
  · show (if fitsU64 ((quoteParts amountIn rin rout).1.div (quoteParts amountIn rin rout).2) = true
      then ((quoteParts amountIn rin rout).1.div (quoteParts amountIn rin rout).2).w0
      else 0).toNat = _
    rw [if_pos (quoteParts_fits hr), w0_of_fitsU64 (quoteParts_fits hr), quoteParts_div rout hr]

/-- A quote leaves the product of the reserves, with the fee left out of the
side that is paid in, at least as large. -/
theorem ammQuote_le (amountIn rin rout : Amount) :
    (ammQuote amountIn rin rout).toNat * (rin.toNat * 10000 + amountIn.toNat * 9970) ≤
      amountIn.toNat * 9970 * rout.toNat := by
  rcases Nat.eq_zero_or_pos rin.toNat with hr | hr
  · have h0 : ammQuote amountIn rin rout = 0 := by
      rw [ammQuote, if_pos (.inr (.inl (UInt64.toNat.inj hr)))]
    rw [h0]
    exact (Nat.zero_mul _).trans_le (Nat.zero_le _)
  · rw [ammQuote_toNat hr]
    exact Nat.div_mul_le_self ..

/-- A quote is the largest amount that keeps the product; nothing on the way to
it wraps, a larger payment gets no less, and two payments get no more than one. -/
theorem ammQuote_exact {a rin rout : Amount} (ha : 0 < a) (hr : 0 < rin) (ho : 0 < rout) :
    (quoteParts a rin rout).1.toNat = a.toNat * 9970 * rout.toNat ∧
    (quoteParts a rin rout).2.toNat = rin.toNat * 10000 + a.toNat * 9970 ∧
    fitsU64 ((quoteParts a rin rout).1.div (quoteParts a rin rout).2) = true ∧
    (ammQuote a rin rout).toNat < rout.toNat ∧
    (∀ x : Int, x ≤ (ammQuote a rin rout).toNat ↔
      ((rin.toNat : Int) * 10000 + a.toNat * 9970) * (rout.toNat - x) ≥
        rin.toNat * 10000 * rout.toNat) ∧
    (∀ b : Amount, a ≤ b → ammQuote a rin rout ≤ ammQuote b rin rout) ∧
    ∀ b : Amount, 0 < b → a.toNat + b.toNat < 2 ^ 64 → rin.toNat + a.toNat < 2 ^ 64 →
      (ammQuote a rin rout).toNat +
          (ammQuote b (rin + a) (rout - ammQuote a rin rout)).toNat ≤
        (ammQuote (a + b) rin rout).toNat := by
  have ha : 0 < a.toNat := UInt64.lt_iff_toNat_lt.mp ha
  have hr : 0 < rin.toNat := UInt64.lt_iff_toNat_lt.mp hr
  have ho : 0 < rout.toNat := UInt64.lt_iff_toNat_lt.mp ho
  have hrd : 0 < rin.toNat * 10000 := by omega
  have hq := @ammQuote_toNat a rin rout hr
  have hlt : (ammQuote a rin rout).toNat < rout.toNat := by
    rw [hq]
    exact out_lt hrd ho
  obtain ⟨hnum, hden⟩ := quoteParts_toNat a rin rout
  refine ⟨hnum, hden, quoteParts_fits hr, hlt, fun x => ?_, fun b hb => ?_, fun b hb hab hra => ?_⟩
  · rw [hq]
    exact le_out_iff_int hrd
  · rw [UInt64.le_iff_toNat_le, hq, ammQuote_toNat hr]
    exact out_mono hrd (UInt64.le_iff_toNat_le.mp hb)
  · have hsum : (a + b).toNat = a.toNat + b.toNat := by
      rw [UInt64.toNat_add, Nat.mod_eq_of_lt hab]
    have hrin : (rin + a).toNat = rin.toNat + a.toNat := by
      rw [UInt64.toNat_add, Nat.mod_eq_of_lt hra]
    have hrout : (rout - ammQuote a rin rout).toNat = rout.toNat - (ammQuote a rin rout).toNat :=
      UInt64.toNat_sub_of_le _ _ (UInt64.le_iff_toNat_le.mpr hlt.le)
    have hrin' : 0 < (rin + a).toNat := by omega
    rw [ammQuote_toNat hrin', @ammQuote_toNat a _ _ hr, @ammQuote_toNat (a + b) _ _ hr, hsum, hrin,
      hrout, hq]
    exact out_split hrd (by omega)

/-- One payment of a thousand into reserves of a million each, next to two of five
hundred. -/
theorem ammQuote_exact_split :
    (ammQuote 500 1000000 1000000).toNat +
        (ammQuote 500 (1000000 + 500) (1000000 - ammQuote 500 1000000 1000000)).toNat ≤
      (ammQuote (500 + 500) 1000000 1000000).toNat :=
  (ammQuote_exact (by decide) (by decide) (by decide)).2.2.2.2.2.2 500 (by decide) (by decide)
    (by decide)

/-! ## The inverse -/

/-- The least payment that gets at least `out`. -/
def LeastPayment (out rin rout x : Amount) : Prop :=
  ammQuote x rin rout ≥ out ∧ ∀ y, ammQuote y rin rout ≥ out → x ≤ y

/-- The rounds the loop of `amm_quote_in` makes from the payment `n` on. -/
def tightenRounds (out rin rout : Amount) : Nat → Nat
  | 0 => 0
  | n + 1 =>
      if n + 1 > 1 ∧ ammQuote (UInt64.ofNat n) rin rout ≥ out then
        tightenRounds out rin rout n + 1
      else 0

/-- The quotient of `amm_quote_in`. -/
def inverseQuotient (out rin rout : Amount) : U256 :=
  ((u256 (rin.toNat * out.toNat)).mul64 10000).div
    (u256 ((rout - out).toNat * (10000 - poolFeeBps.toNat)))

theorem ammQuoteIn_eq (out rin rout : Amount) : ammQuoteIn out rin rout =
    if out = 0 ∨ out ≥ rout ∨ rin = 0 then 0
    else if !fitsU64 (inverseQuotient out rin rout) then 0
    else
      if ammQuote (UInt64.ofNat (tighten out rin rout
          ((inverseQuotient out rin rout).w0 + 1).toNat)) rin rout ≥ out then
        UInt64.ofNat (tighten out rin rout ((inverseQuotient out rin rout).w0 + 1).toNat)
      else 0 := rfl

/-- The rounds of the loop in a call of `amm_quote_in`. -/
def inverseRounds (out rin rout : Amount) : Nat :=
  if out = 0 ∨ out ≥ rout ∨ rin = 0 then 0
  else if !fitsU64 (inverseQuotient out rin rout) then 0
  else tightenRounds out rin rout ((inverseQuotient out rin rout).w0 + 1).toNat

/-- `amm_quote_in` is the inverse of `amm_quote`: the least payment that gets
`out`, zero where there is none, after at most one round of the loop. -/
def Inverts (out rin rout : Amount) : Prop :=
  ((∃ x, ammQuote x rin rout ≥ out ∧ out > 0) →
      LeastPayment out rin rout (ammQuoteIn out rin rout)) ∧
    ((¬ ∃ x, ammQuote x rin rout ≥ out ∧ out > 0) → ammQuoteIn out rin rout = 0) ∧
    inverseRounds out rin rout ≤ 1

/-- The one kind of input on which adding one to the quotient wraps although the
quotient itself is a payment that suffices. -/
def WrapsAtTop (out rin rout : Amount) : Prop :=
  0 < out ∧ out < rout ∧
    rin.toNat * 10000 * out.toNat = (2 ^ 64 - 1) * (9970 * (rout.toNat - out.toNat))

section

variable {out rin rout : Amount}

theorem ammQuote_zero (rin rout : Amount) : ammQuote 0 rin rout = 0 := by
  rw [ammQuote, if_pos (.inl rfl)]

/-- What a payment has to come up to. -/
theorem ammQuote_ge_iff (hr : 0 < rin.toNat) (hlt : out.toNat < rout.toNat) (x : Amount) :
    ammQuote x rin rout ≥ out ↔
      rin.toNat * 10000 * out.toNat ≤ x.toNat * (9970 * (rout.toNat - out.toNat)) := by
  rw [ge_iff_le, UInt64.le_iff_toNat_le, ammQuote_toNat hr]
  exact le_out_iff_payment (by omega) hlt.le

theorem inverseQuotient_toNat (hlt : out.toNat < rout.toNat) :
    (inverseQuotient out rin rout).toNat =
      rin.toNat * 10000 * out.toNat / (9970 * (rout.toNat - out.toNat)) := by
  have hri := rin.toNat_lt
  have hro := rout.toNat_lt
  have hfee : 10000 - poolFeeBps.toNat = 9970 := rfl
  have hm : (10000 : UInt64).toNat = 10000 := rfl
  have hsub : (rout - out).toNat = rout.toNat - out.toNat :=
    UInt64.toNat_sub_of_le _ _ (UInt64.le_iff_toNat_le.mpr hlt.le)
  have hprod : rin.toNat * out.toNat < 2 ^ 128 :=
    calc rin.toNat * out.toNat ≤ (2 ^ 64 - 1) * (2 ^ 64 - 1) :=
          Nat.mul_le_mul (by omega) (by omega)
      _ < 2 ^ 128 := by decide
  have hden : (u256 ((rout.toNat - out.toNat) * 9970)).toNat =
      (rout.toNat - out.toNat) * 9970 := u256_toNat (by omega)
  have hnum : ((u256 (rin.toNat * out.toNat)).mul64 10000).toNat =
      rin.toNat * out.toNat * 10000 := by
    rw [U256.mul64_toNat, u256_toNat hprod, hm, Nat.mod_eq_of_lt (by omega)]
  rw [inverseQuotient, hfee, hsub, U256.div_toNat (by rw [hden]; omega),
    hnum, hden, Nat.mul_right_comm, Nat.mul_comm 9970]

/-- A payment that suffices where one less does not is where the loop stops. -/
theorem tighten_stop {n : Nat} (h : ¬ (n + 1 > 1 ∧ ammQuote (UInt64.ofNat n) rin rout ≥ out)) :
    tighten out rin rout (n + 1) = n + 1 ∧ tightenRounds out rin rout (n + 1) = 0 := by
  rw [tighten, tightenRounds, if_neg h, if_neg h]
  exact ⟨rfl, rfl⟩

theorem tighten_once {n : Nat} (h : n + 1 > 1 ∧ ammQuote (UInt64.ofNat n) rin rout ≥ out) :
    tighten out rin rout (n + 1) = tighten out rin rout n ∧
      tightenRounds out rin rout (n + 1) = tightenRounds out rin rout n + 1 := by
  rw [tighten, tightenRounds, if_pos h, if_pos h]
  exact ⟨rfl, rfl⟩

/-- The loop ends at the rounded-up quotient `c` of `m` by `k`, after one round
if there was nothing to round. -/
theorem tighten_quotient {m k : Nat} (hm : 0 < m) (hk : 0 < k) (hq : m / k + 1 < 2 ^ 64)
    (hsuff : ∀ x : Amount, ammQuote x rin rout ≥ out ↔ m ≤ x.toNat * k) :
    ∃ c, tighten out rin rout (m / k + 1) = c ∧ 0 < c ∧ c < 2 ^ 64 ∧
      (∀ x, m ≤ x * k ↔ c ≤ x) ∧ tightenRounds out rin rout (m / k + 1) ≤ 1 := by
  have hlow : m / k * k ≤ m := Nat.div_mul_le_self m k
  have hup : m < (m / k + 1) * k := Nat.lt_mul_of_div_lt (Nat.lt_succ_self _) hk
  have hof : ∀ n < 2 ^ 64, (UInt64.ofNat n).toNat = n := fun n hn => by
    rw [UInt64.toNat_ofNat', Nat.mod_eq_of_lt hn]
  by_cases hdiv : m ≤ m / k * k
  · -- The division is exact: one round takes back the one that was added.
    have heq : m / k * k = m := Nat.le_antisymm hlow hdiv
    obtain ⟨n, hn⟩ : ∃ n, m / k = n + 1 := by
      refine Nat.exists_eq_succ_of_ne_zero fun h0 => ?_
      rw [h0, Nat.zero_mul] at heq
      omega
    rw [hn] at heq hq ⊢
    have hless : ¬ m ≤ n * k := by
      rw [← heq, Nat.add_mul]
      omega
    have hone := @tighten_once out rin rout (n + 1)
      ⟨by omega, by rw [hsuff, hof _ (by omega), heq]⟩
    have hstop := @tighten_stop out rin rout n
      (fun h => hless (by rw [hsuff, hof _ (by omega)] at h; exact h.2))
    refine ⟨n + 1, by rw [hone.1, hstop.1], by omega, by omega, fun x => ⟨fun h => ?_, fun h => ?_⟩,
      by rw [hone.2, hstop.2]⟩
    · by_contra hx
      exact hless (h.trans (Nat.mul_le_mul_right k (by omega)))
    · rw [← heq]
      exact Nat.mul_le_mul_right k h
  · have hstop := @tighten_stop out rin rout (m / k)
      (fun h => hdiv (by rw [hsuff, hof _ (Nat.lt_of_succ_lt hq)] at h; exact h.2))
    refine ⟨m / k + 1, hstop.1, Nat.succ_pos _, hq, fun x => ⟨fun h => ?_, fun h => ?_⟩,
      hstop.2.trans_le (Nat.zero_le 1)⟩
    · by_contra hx
      have hle : x ≤ m / k := by omega
      exact hdiv (h.trans (Nat.mul_le_mul_right k hle))
    · exact hup.le.trans (Nat.mul_le_mul_right k h)

/-- Where one side is empty, or all of the other is asked for, nothing suffices. -/
theorem not_suffices (h : out = 0 ∨ out ≥ rout ∨ rin = 0) :
    ¬ ∃ x, ammQuote x rin rout ≥ out ∧ out > 0 := by
  rintro ⟨x, hx, hpos⟩
  have hpos : 0 < out.toNat := UInt64.lt_iff_toNat_lt.mp hpos
  have hle := UInt64.le_iff_toNat_le.mp hx
  rcases h with rfl | h | rfl
  · exact absurd hpos (Nat.lt_irrefl 0)
  · have hge := UInt64.le_iff_toNat_le.mp h
    rcases Nat.eq_zero_or_pos rin.toNat with hr | hr
    · rw [ammQuote, if_pos (.inr (.inl (UInt64.toNat.inj hr)))] at hle
      exact absurd (hpos.trans_le hle) (Nat.lt_irrefl 0)
    · rw [ammQuote_toNat hr] at hle
      have hrd : 0 < rin.toNat * 10000 := by omega
      rcases Nat.eq_zero_or_pos rout.toNat with h0 | h0
      · have := @out_le 9970 10000 x.toNat rin.toNat rout.toNat hrd
        omega
      · have := @out_lt 9970 10000 x.toNat rin.toNat rout.toNat hrd h0
        omega
  · rw [ammQuote, if_pos (.inr (.inl rfl))] at hle
    exact absurd (hpos.trans_le hle) (Nat.lt_irrefl 0)

theorem inverts_of_quotient (ho : 0 < out.toNat) (hlt : out.toNat < rout.toNat)
    (hr : 0 < rin.toNat)
    (hq : rin.toNat * 10000 * out.toNat / (9970 * (rout.toNat - out.toNat)) + 1 < 2 ^ 64) :
    Inverts out rin rout := by
  have hne : ¬ (out = 0 ∨ out ≥ rout ∨ rin = 0) := by
    rintro (rfl | h | rfl)
    · exact absurd ho (Nat.lt_irrefl 0)
    · have := UInt64.le_iff_toNat_le.mp h
      omega
    · exact absurd hr (Nat.lt_irrefl 0)
  have hw := @inverseQuotient_toNat out rin rout hlt
  have hfit : fitsU64 (inverseQuotient out rin rout) = true := by
    rw [fitsU64_iff, hw]
    omega
  have hstart : ((inverseQuotient out rin rout).w0 + 1).toNat =
      rin.toNat * 10000 * out.toNat / (9970 * (rout.toNat - out.toNat)) + 1 := by
    have h1 : (1 : UInt64).toNat = 1 := rfl
    rw [UInt64.toNat_add, w0_of_fitsU64 hfit, hw, h1, Nat.mod_eq_of_lt hq]
  obtain ⟨c, hc, hpos, hc64, hsuff, hrounds⟩ := tighten_quotient
    (Nat.mul_pos (by omega) ho) (by omega) hq (ammQuote_ge_iff hr hlt)
  have hcof : (UInt64.ofNat c).toNat = c := by rw [UInt64.toNat_ofNat', Nat.mod_eq_of_lt hc64]
  have hge : ammQuote (UInt64.ofNat c) rin rout ≥ out := by
    rw [ammQuote_ge_iff hr hlt, hcof, hsuff]
  have hval : ammQuoteIn out rin rout = UInt64.ofNat c := by
    rw [ammQuoteIn_eq, if_neg hne, hfit, hstart, hc, if_pos hge]
    rfl
  refine ⟨fun _ => ?_, fun hnone => ?_, ?_⟩
  · rw [hval]
    refine ⟨hge, fun y hy => ?_⟩
    rw [UInt64.le_iff_toNat_le, hcof, ← hsuff]
    exact (ammQuote_ge_iff hr hlt y).mp hy
  · exact absurd ⟨_, hge, UInt64.lt_iff_toNat_lt.mpr ho⟩ hnone
  · rw [inverseRounds, if_neg hne, hfit, hstart]
    exact hrounds

/-- At the top of the range the code gives up: the quotient does not fit, or
adding one to it wraps. -/
theorem ammQuoteIn_top (hlt : out.toNat < rout.toNat) (ho : 0 < out.toNat)
    (hq : 2 ^ 64 ≤
      rin.toNat * 10000 * out.toNat / (9970 * (rout.toNat - out.toNat)) + 1) :
    ammQuoteIn out rin rout = 0 ∧ inverseRounds out rin rout = 0 := by
  have hw := @inverseQuotient_toNat out rin rout hlt
  rw [ammQuoteIn_eq, inverseRounds]
  split
  · exact ⟨rfl, rfl⟩
  · cases hfit : fitsU64 (inverseQuotient out rin rout) with
    | false => exact ⟨rfl, rfl⟩
    | true =>
        have hfit64 := fitsU64_iff.mp hfit
        have hzero : ((inverseQuotient out rin rout).w0 + 1).toNat = 0 := by
          have h1 : (1 : UInt64).toNat = 1 := rfl
          rw [UInt64.toNat_add, w0_of_fitsU64 hfit, h1]
          omega
        have hno : ¬ ammQuote (UInt64.ofNat 0) rin rout ≥ out := by
          intro h
          have hle := UInt64.le_iff_toNat_le.mp h
          rw [show UInt64.ofNat 0 = 0 from rfl, ammQuote_zero] at hle
          exact absurd (ho.trans_le hle) (Nat.lt_irrefl 0)
        rw [hzero]
        exact ⟨if_neg hno, rfl⟩

end

/-- The code inverts the quote on every input but those at the top of the range. -/
theorem ammQuoteIn_inverts (out rin rout : Amount) :
    Inverts out rin rout ↔ ¬ WrapsAtTop out rin rout := by
  constructor
  · -- There the largest payment of all suffices and the code answers zero.
    rintro ⟨hleast, -, -⟩ ⟨ho, hlt, heq⟩
    have hlt := UInt64.lt_iff_toNat_lt.mp hlt
    have ho' : 0 < out.toNat := UInt64.lt_iff_toNat_lt.mp ho
    have hr : 0 < rin.toNat := by
      by_contra h0
      have h0 : rin.toNat = 0 := by omega
      simp only [h0, Nat.zero_mul] at heq
      omega
    have hmax : ammQuote (UInt64.ofNat (2 ^ 64 - 1)) rin rout ≥ out := by
      rw [ammQuote_ge_iff hr hlt, heq]
      exact Nat.le_refl _
    have hzero : ammQuoteIn out rin rout = 0 := by
      refine (ammQuoteIn_top hlt ho' ?_).1
      rw [heq, Nat.mul_div_cancel _ (by omega)]
      decide
    have h := (hleast ⟨_, hmax, ho⟩).1
    rw [hzero, ammQuote_zero] at h
    exact absurd (ho'.trans_le (UInt64.le_iff_toNat_le.mp h)) (Nat.lt_irrefl 0)
  · intro hno
    by_cases hedge : out = 0 ∨ out ≥ rout ∨ rin = 0
    · refine ⟨fun h => absurd h (not_suffices hedge), fun _ => ?_, ?_⟩
      · rw [ammQuoteIn_eq, if_pos hedge]
      · rw [inverseRounds, if_pos hedge]
        exact Nat.zero_le 1
    · simp only [not_or] at hedge
      have ho : 0 < out.toNat := ne_zero_iff_toNat.mp hedge.1
      have hr : 0 < rin.toNat := ne_zero_iff_toNat.mp hedge.2.2
      have hlt : out.toNat < rout.toNat :=
        Nat.lt_of_not_le fun h => hedge.2.1 (UInt64.le_iff_toNat_le.mpr h)
      rcases Nat.lt_or_ge (rin.toNat * 10000 * out.toNat / (9970 * (rout.toNat - out.toNat)) + 1)
        (2 ^ 64) with hq | hq
      · exact inverts_of_quotient ho hlt hr hq
      · -- Nothing in 64 bits suffices.
        have htop := ammQuoteIn_top hlt ho hq
        have hnone : ¬ ∃ x, ammQuote x rin rout ≥ out ∧ out > 0 := by
          rintro ⟨x, hx, hpos⟩
          have hle := (ammQuote_ge_iff hr hlt x).mp hx
          have hx64 := x.toNat_lt
          have hk : 0 < 9970 * (rout.toNat - out.toNat) := by omega
          have hdiv := Nat.div_le_of_le_mul (hle.trans_eq (Nat.mul_comm ..))
          have hxtop : x.toNat = 2 ^ 64 - 1 := by omega
          rw [hxtop] at hle
          have hquot : 2 ^ 64 - 1 ≤
              rin.toNat * 10000 * out.toNat / (9970 * (rout.toNat - out.toNat)) := by omega
          have hge := (Nat.le_div_iff_mul_le hk).mp hquot
          exact hno ⟨hpos, UInt64.lt_iff_toNat_lt.mpr hlt, Nat.le_antisymm hle hge⟩
        refine ⟨fun h => absurd h hnone, fun _ => htop.1, ?_⟩
        rw [htop.2]
        exact Nat.zero_le 1

/-- A fifth of the largest amount against 1197: the largest payment gets 997, and
the code says that none does. -/
theorem ammQuoteIn_wraps : ¬ Inverts 997 (UInt64.ofNat ((2 ^ 64 - 1) / 5)) 1197 := by
  have hlt : (997 : Amount).toNat < (1197 : Amount).toNat := by decide
  have hmax : ammQuote (UInt64.ofNat (2 ^ 64 - 1)) (UInt64.ofNat ((2 ^ 64 - 1) / 5)) 1197 ≥ 997 :=
    (ammQuote_ge_iff (by decide) hlt _).mpr (by decide)
  have hzero : ammQuoteIn 997 (UInt64.ofNat ((2 ^ 64 - 1) / 5)) 1197 = 0 :=
    (ammQuoteIn_top hlt (by decide) (by decide)).1
  rintro ⟨hleast, -, -⟩
  have h := (hleast ⟨_, hmax, by decide⟩).1
  rw [hzero, ammQuote_zero] at h
  exact absurd h (by decide)

end QuantCore
