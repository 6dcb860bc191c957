import QuantCore.Consensus.Pow
import QuantCore.Crypto.Instances
import QuantCore.Proofs.Compact
import QuantCore.Proofs.Tree
import Mathlib.Algebra.BigOperators.Intervals
import Mathlib.Algebra.Order.BigOperators.Group.Finset
import Mathlib.Tactic.Ring

/-!
# The retarget over every history of headers

`nextBits` reads the headers through an index function and computes in machine
words. Below it is repeated with every read checked against the headers that are
there and every operation against the width it is computed in; nothing fails, so
the wrapped arithmetic is arithmetic. What it computes is then a number: the
targets' sum, scaled by the weighted solve times, clipped to the limit and
rounded down by the compact form. Each of these steps keeps the order, and so
does the whole.
-/

namespace QuantCore

/-! ## Every operation checked -/

/-- A result of `int64_t` arithmetic, unless it leaves the type. -/
def int64Exact (x : Int) : Option Int := if -2 ^ 63 ≤ x ∧ x < 2 ^ 63 then some x else none

/-- `uint64_t(x)`, unless the value changes. -/
def uint64Exact (x : Int) : Option UInt64 :=
  if 0 ≤ x ∧ x < 2 ^ 64 then some (UInt64.ofInt x) else none

/-- `int64_t(t)`, unless the value changes. -/
def timeExact (t : UInt64) : Option Int := if t.toNat < 2 ^ 63 then some (int64 t) else none

namespace U256

def addExact (a b : U256) : Option U256 :=
  if a.toNat + b.toNat < 2 ^ 256 then some (a.add b) else none

def mul64Exact (a : U256) (m : UInt64) : Option U256 :=
  if a.toNat * m.toNat < 2 ^ 256 then some (a.mul64 m) else none

/-- Division, unless by zero. -/
def div64Exact (a : U256) (d : UInt64) : Option U256 :=
  if d = 0 then none else some (a.div64 d)

/-- `from_compact`, unless bits are shifted out at the top. -/
def ofCompactExact (bits : UInt32) : Option U256 :=
  if (fromCompact bits).2.2 then none else some (ofCompact bits)

end U256

def lwmaLoopExact (back : List HeaderInfo) (n : Nat) :
    Nat → Nat → Int → U256 → Option (Int × U256)
  | 0, _, weighted, sum => some (weighted, sum)
  | rounds + 1, j, weighted, sum => do
      let cur ← back[n - j]?
      let before ← back[n - j + 1]?
      let now ← timeExact cur.time
      let past ← timeExact before.time
      let st ← int64Exact (now - past)
      let st := max (-(6 * targetSpacing)) (min (6 * targetSpacing) st)
      let term ← int64Exact (st * j)
      let weighted ← int64Exact (weighted + term)
      let target ← U256.ofCompactExact cur.bits
      let sum ← sum.addExact target
      lwmaLoopExact back n rounds (j + 1) weighted sum

/-- `next_bits` over the headers `back`, the newest first. -/
def nextBitsExact (tipHeight : Nat) (back : List HeaderInfo) (p : ChainParams) :
    Option UInt32 :=
  if p.noRetarget then some p.genesisBits
  else
    let n := min lwmaWindow tipHeight
    if n < 3 then back[0]?.map HeaderInfo.bits
    else do
      let m ← int64Exact (n * (n + 1))
      let m ← int64Exact (m * targetSpacing)
      let k := m / 2
      let (weighted, sum) ← lwmaLoopExact back n n 1 0 {}
      let weighted := if weighted < k / 10 then k / 10 else weighted
      let divisor ← uint64Exact (n * k)
      let next ← sum.div64Exact divisor
      let factor ← uint64Exact weighted
      let next ← next.mul64Exact factor
      let next := if next.gt p.powLimit ∨ next.isZero then p.powLimit else next
      some next.toCompact

/-! ## Histories -/

/-- Bits that stand for a target within the limit. -/
structure ValidBits (p : ChainParams) (bits : UInt32) : Prop where
  notNegative : (U256.fromCompact bits).2.1 = false
  notOverflow : (U256.fromCompact bits).2.2 = false
  pos : 0 < (U256.ofCompact bits).toNat
  le_limit : (U256.ofCompact bits).toNat ≤ p.powLimit.toNat

structure HeaderInfo.Valid (p : ChainParams) (h : HeaderInfo) : Prop where
  bits : ValidBits p h.bits
  time : h.time.toNat < 2 ^ 62

/-- The target of the header's own bits. -/
def HeaderInfo.target (h : HeaderInfo) : Nat := (U256.ofCompact h.bits).toNat

/-- The headers `next_bits_for` collects from a history, the newest first. -/
def headersRead (history : List HeaderInfo) : List HeaderInfo := history.take (lwmaWindow + 2)

/-- The bits that have to follow a history. -/
def bitsAfter (p : ChainParams) (history : List HeaderInfo) : UInt32 :=
  nextBits (history.length - 1) (fun i => (headersRead history).getD i default) p

theorem int64_of_lt {t : UInt64} (h : t.toNat < 2 ^ 63) : int64 t = (t.toNat : Int) := by
  rw [int64, BitVec.toInt_eq_toNat_of_lt (by rw [UInt64.toNat_toBitVec]; omega),
    UInt64.toNat_toBitVec]

/-- The solve time of weight `j` after clamping. -/
def solveTime (prev : Nat → HeaderInfo) (n j : Nat) : Int :=
  max (-(6 * targetSpacing)) (min (6 * targetSpacing)
    (int64 (prev (n - j)).time - int64 (prev (n - j + 1)).time))

theorem solveTime_bounds (prev : Nat → HeaderInfo) (n j : Nat) :
    -720 ≤ solveTime prev n j ∧ solveTime prev n j ≤ 720 := by
  rw [solveTime, targetSpacing]
  omega

/-! ## The accumulation loop -/

/-- The weighted solve times of the rounds before weight `j`. -/
def weightedBefore (prev : Nat → HeaderInfo) (n j : Nat) : Int :=
  ∑ i ∈ Finset.range j, solveTime prev n (i + 1) * (i + 1 : Nat)

/-- The targets of the rounds before weight `j`. -/
def targetsBefore (prev : Nat → HeaderInfo) (n j : Nat) : Nat :=
  ∑ i ∈ Finset.range j, (prev (n - (i + 1))).target

theorem weightedBefore_le (prev : Nat → HeaderInfo) (n j : Nat) :
    weightedBefore prev n j ≤ 360 * (j * (j + 1) : Nat) ∧
      -(360 * (j * (j + 1) : Nat) : Int) ≤ weightedBefore prev n j := by
  induction j with
  | zero => simp [weightedBefore]
  | succ j ih =>
      have hstep : weightedBefore prev n (j + 1) =
          weightedBefore prev n j + solveTime prev n (j + 1) * (j + 1 : Nat) :=
        Finset.sum_range_succ ..
      obtain ⟨hlo, hhi⟩ := solveTime_bounds prev n (j + 1)
      have hup : solveTime prev n (j + 1) * (j + 1 : Nat) ≤ 720 * (j + 1 : Nat) :=
        Int.mul_le_mul_of_nonneg_right hhi (Int.natCast_nonneg _)
      have hdown : -720 * ((j + 1 : Nat) : Int) ≤ solveTime prev n (j + 1) * (j + 1 : Nat) :=
        Int.mul_le_mul_of_nonneg_right hlo (Int.natCast_nonneg _)
      have hsquare : (j + 1) * (j + 1 + 1) = j * (j + 1) + 2 * (j + 1) := by ring
      rw [hstep, hsquare]
      generalize solveTime prev n (j + 1) * (j + 1 : Nat) = term at hup hdown ⊢
      generalize j * (j + 1) = square at ih ⊢
      omega

theorem ofInt_natCast_toNat {n : Nat} (h : n < 2 ^ 64) : (UInt64.ofInt (n : Int)).toNat = n := by
  rw [UInt64.ofInt, UInt64.toNat_ofNat']
  omega

theorem bind_of_eq {α β : Type} {x : Option α} {a : α} (h : x = some a) (f : α → Option β) :
    (x >>= f) = f a := by
  rw [h]
  rfl

/-- A history the loop can run over: every header it reads is there and valid. -/
structure Readable (p : ChainParams) (n : Nat) (back : List HeaderInfo) : Prop where
  window : n ≤ lwmaWindow
  enough : n < back.length
  valid : ∀ h ∈ back, h.Valid p
  limit : p.powLimit.toNat < 2 ^ 240

theorem HeaderInfo.Valid.timeExact {p : ChainParams} {h : HeaderInfo} (hv : h.Valid p) :
    timeExact h.time = some (h.time.toNat : Int) := by
  have ht := hv.time
  rw [QuantCore.timeExact, if_pos (by omega), int64_of_lt (by omega)]

theorem HeaderInfo.Valid.target_lt {p : ChainParams} {h : HeaderInfo} (hv : h.Valid p)
    (hp : p.powLimit.toNat < 2 ^ 240) : h.target < 2 ^ 240 :=
  Nat.lt_of_le_of_lt hv.bits.le_limit hp

namespace Readable

variable {p : ChainParams} {n : Nat} {back : List HeaderInfo}

/-- What the loop reads is the history at an index within the window. -/
theorem read (hr : Readable p n back) {i : Nat} (hi : i ≤ n) :
    back[i]? = some (back.getD i default) ∧ (back.getD i default).Valid p := by
  have hlt : i < back.length := Nat.lt_of_le_of_lt hi hr.enough
  have hget : back[i]? = some back[i] := List.getElem?_eq_getElem hlt
  rw [List.getD_eq_getElem?_getD, hget, Option.getD_some]
  exact ⟨rfl, hr.valid _ (List.getElem_mem hlt)⟩

theorem targetsBefore_lt (hr : Readable p n back) (j : Nat) (hj : j ≤ n) :
    targetsBefore (fun i => back.getD i default) n j ≤ j * 2 ^ 240 := by
  induction j with
  | zero => simp [targetsBefore]
  | succ j ih =>
      have hstep : targetsBefore (fun i => back.getD i default) n (j + 1) =
          targetsBefore (fun i => back.getD i default) n j +
            (back.getD (n - (j + 1)) default).target := Finset.sum_range_succ ..
      have hlast := (hr.read (i := n - (j + 1)) (by omega)).2.target_lt hr.limit
      have hrest := ih (by omega)
      rw [hstep]
      omega

/-- From the accumulators of the first `j` rounds the checked loop goes on as
the loop does, and ends with the accumulators of all of them. -/
theorem lwmaLoopExact_eq (hr : Readable p n back) (rounds : Nat) {j : Nat}
    (hj : j + rounds = n) {weighted : Int} {sum : U256}
    (hw : weighted = weightedBefore (fun i => back.getD i default) n j)
    (hs : sum.toNat = targetsBefore (fun i => back.getD i default) n j) :
    ∃ total : U256, total.toNat = targetsBefore (fun i => back.getD i default) n n ∧
      lwmaLoop (fun i => back.getD i default) n rounds (j + 1) weighted sum =
        (weightedBefore (fun i => back.getD i default) n n, total) ∧
      lwmaLoopExact back n rounds (j + 1) weighted sum =
        some (weightedBefore (fun i => back.getD i default) n n, total) := by
  induction rounds generalizing j weighted sum with
  | zero =>
      obtain rfl : j = n := by omega
      exact ⟨sum, hs, by rw [lwmaLoop, hw], by rw [lwmaLoopExact, hw]⟩
  | succ rounds ih =>
      have hwin := hr.window
      rw [lwmaWindow] at hwin
      obtain ⟨hcur, hcv⟩ := hr.read (i := n - (j + 1)) (by omega)
      obtain ⟨hbefore, hbv⟩ := hr.read (i := n - (j + 1) + 1) (by omega)
      have hct := hcv.time
      have hbt := hbv.time
      generalize hprev : (fun i => back.getD i default) = prev at hw hs ih ⊢
      have hat : ∀ i, back.getD i default = prev i := fun i => congrFun hprev i
      rw [hat] at hcur hbefore hcv hbv hct hbt
      -- The interval, its product with the weight and the new sum stay in 64 bits.
      have hsub : int64Exact ((prev (n - (j + 1))).time.toNat -
          (prev (n - (j + 1) + 1)).time.toNat) = some (int64 (prev (n - (j + 1))).time -
            int64 (prev (n - (j + 1) + 1)).time) := by
        rw [int64Exact, if_pos (by omega), int64_of_lt (by omega), int64_of_lt (by omega)]
      obtain ⟨hlo, hhi⟩ := solveTime_bounds prev n (j + 1)
      have hterm : int64Exact (solveTime prev n (j + 1) * (j + 1 : Nat)) =
          some (solveTime prev n (j + 1) * (j + 1 : Nat)) := by
        have hup := Int.mul_le_mul_of_nonneg_right hhi (Int.natCast_nonneg (j + 1))
        have hdown := Int.mul_le_mul_of_nonneg_right hlo (Int.natCast_nonneg (j + 1))
        rw [int64Exact, if_pos (by omega)]
      have hstep : weighted + solveTime prev n (j + 1) * (j + 1 : Nat) =
          weightedBefore prev n (j + 1) := by
        rw [hw]
        exact (Finset.sum_range_succ ..).symm
      have hadd : int64Exact (weightedBefore prev n (j + 1)) =
          some (weightedBefore prev n (j + 1)) := by
        have hbound := weightedBefore_le prev n (j + 1)
        have hsmall : (j + 1) * (j + 1 + 1) ≤ 60 * 61 := Nat.mul_le_mul (by omega) (by omega)
        rw [int64Exact, if_pos (by omega)]
      have htarget : U256.ofCompactExact (prev (n - (j + 1))).bits =
          some (U256.ofCompact (prev (n - (j + 1))).bits) := by
        rw [U256.ofCompactExact, hcv.bits.notOverflow]
        rfl
      have hsum : (prev (n - (j + 1))).target < 2 ^ 240 := hcv.target_lt hr.limit
      have hprevious : targetsBefore prev n j ≤ j * 2 ^ 240 := by
        rw [← hprev]
        exact hr.targetsBefore_lt j (by omega)
      have hfit : sum.toNat + (U256.ofCompact (prev (n - (j + 1))).bits).toNat < 2 ^ 256 := by
        rw [HeaderInfo.target] at hsum
        omega
      have hnew : (sum.add (U256.ofCompact (prev (n - (j + 1))).bits)).toNat =
          targetsBefore prev n (j + 1) := by
        rw [U256.add_toNat, Nat.mod_eq_of_lt hfit, hs]
        exact (Finset.sum_range_succ ..).symm
      obtain ⟨total, htotal, hloop, hexact⟩ := ih (by omega) rfl hnew
      refine ⟨total, htotal, ?_, ?_⟩
      · rw [lwmaLoop]
        show lwmaLoop prev n rounds (j + 1 + 1)
          (weighted + solveTime prev n (j + 1) * (j + 1 : Nat)) _ = _
        rw [hstep, hloop]
      · simp only [lwmaLoopExact, hcur, hbefore, hcv.timeExact, hbv.timeExact, hsub,
          Option.bind_eq_bind, Option.bind_some]
        change (int64Exact (solveTime prev n (j + 1) * (j + 1 : Nat))).bind _ = _
        simp only [hterm, hstep, hadd, htarget, U256.addExact, if_pos hfit, hexact,
          Option.bind_some]

end Readable

/-! ## From the accumulators to the target -/

/-- `k`: what the weighted solve times add up to when every block is on time. -/
def expectedTime (n : Nat) : Nat := n * (n + 1) * targetSpacing.toNat / 2

theorem expectedTime_eq (n : Nat) : expectedTime n = 60 * (n * (n + 1)) := by
  have htarget : targetSpacing.toNat = 120 := rfl
  rw [expectedTime, htarget]
  omega

/-- The weighted solve times, kept from falling below a tenth of `k`. -/
def guardedTime (prev : Nat → HeaderInfo) (n : Nat) : Nat :=
  (max ((expectedTime n : Int) / 10) (weightedBefore prev n n)).toNat

theorem guardedTime_le (prev : Nat → HeaderInfo) (n : Nat) :
    guardedTime prev n ≤ 6 * expectedTime n := by
  have h := (weightedBefore_le prev n n).1
  rw [guardedTime, expectedTime_eq]
  generalize n * (n + 1) = square at h ⊢
  omega

theorem guardedTime_pos (prev : Nat → HeaderInfo) {n : Nat} (hn : 3 ≤ n) :
    0 < guardedTime prev n := by
  have hsquare : 3 * 4 ≤ n * (n + 1) := Nat.mul_le_mul hn (by omega)
  rw [guardedTime, expectedTime_eq]
  generalize n * (n + 1) = square at hsquare ⊢
  omega

/-- The zero guard and the upper limit. -/
def clip (limit x : Nat) : Nat := if limit < x ∨ x = 0 then limit else x

theorem clip_le (limit x : Nat) : clip limit x ≤ limit := by
  rw [clip]
  split <;> omega

theorem clip_pos {limit : Nat} (h : 0 < limit) (x : Nat) : 0 < clip limit x := by
  rw [clip]
  split <;> omega

theorem clip_le_self {limit x : Nat} (h : 0 < x) : clip limit x ≤ x := by
  rw [clip]
  split <;> omega

/-- The guard moves zero alone, and so keeps the order of numbers that are zero
together or not at all. -/
theorem clip_mono (limit : Nat) {x y : Nat} (h : x ≤ y) (hzero : x = 0 ↔ y = 0) :
    clip limit x ≤ clip limit y := by
  rw [clip, clip]
  split <;> split <;> omega

/-- The target a full window asks for, before its compact form. -/
def windowTarget (limit : Nat) (prev : Nat → HeaderInfo) (n : Nat) : Nat :=
  clip limit (targetsBefore prev n n / (n * expectedTime n) * guardedTime prev n)

/-- Scaling by the solve times at most doubles a sum over three targets or more. -/
theorem scaled_le (sum : Nat) (prev : Nat → HeaderInfo) {n : Nat} (hn : 3 ≤ n) :
    sum / (n * expectedTime n) * guardedTime prev n ≤ 2 * sum := by
  have hle : guardedTime prev n ≤ 2 * (n * expectedTime n) := by
    have h6 : 3 * expectedTime n ≤ n * expectedTime n := Nat.mul_le_mul_right _ hn
    have := guardedTime_le prev n
    omega
  calc sum / (n * expectedTime n) * guardedTime prev n
      ≤ sum / (n * expectedTime n) * (2 * (n * expectedTime n)) := Nat.mul_le_mul_left _ hle
    _ = 2 * (sum / (n * expectedTime n) * (n * expectedTime n)) := by
        rw [Nat.mul_left_comm]
    _ ≤ 2 * sum := Nat.mul_le_mul_left _ (Nat.div_mul_le_self ..)

theorem expectedTime_bounds {n : Nat} (hn : 3 ≤ n) (hwin : n ≤ 60) :
    expectedTime n ≤ 219600 ∧ 0 < n * expectedTime n ∧ n * expectedTime n ≤ 13176000 := by
  have hlow : 3 * 4 ≤ n * (n + 1) := Nat.mul_le_mul hn (by omega)
  have hhigh : n * (n + 1) ≤ 60 * 61 := Nat.mul_le_mul hwin (by omega)
  have hexp : expectedTime n ≤ 219600 := by
    rw [expectedTime_eq]
    omega
  have hpos : 0 < expectedTime n := by
    rw [expectedTime_eq]
    omega
  refine ⟨hexp, Nat.mul_pos (by omega) hpos, ?_⟩
  calc n * expectedTime n ≤ 60 * 219600 := Nat.mul_le_mul hwin hexp
    _ = 13176000 := by norm_num

theorem Readable.nextBits_eq {p : ChainParams} {tipHeight : Nat} {back : List HeaderInfo}
    (hr : Readable p (min lwmaWindow tipHeight) back) (hn : 3 ≤ min lwmaWindow tipHeight)
    (hret : p.noRetarget = false) :
    ∃ next : U256,
      next.toNat = windowTarget p.powLimit.toNat (fun i => back.getD i default)
        (min lwmaWindow tipHeight) ∧
      nextBits tipHeight (fun i => back.getD i default) p = next.toCompact ∧
      nextBitsExact tipHeight back p = some next.toCompact := by
  have hempty : (0 : Int) = weightedBefore (fun i => back.getD i default)
      (min lwmaWindow tipHeight) 0 := rfl
  have hzero : ({} : U256).toNat = targetsBefore (fun i => back.getD i default)
      (min lwmaWindow tipHeight) 0 := rfl
  obtain ⟨total, htotal, hloop, hexact⟩ := hr.lwmaLoopExact_eq (min lwmaWindow tipHeight)
    (Nat.zero_add _) hempty hzero
  have hbound := hr.targetsBefore_lt _ (Nat.le_refl _)
  have hwin := hr.window
  rw [Nat.zero_add] at hloop hexact
  rw [nextBits, nextBitsExact, hret]
  simp only [Bool.false_eq_true, if_false]
  generalize min lwmaWindow tipHeight = n at *
  generalize hprev : (fun i => back.getD i default) = prev at *
  rw [lwmaWindow] at hwin
  have hsquare : n * (n + 1) ≤ 60 * 61 := Nat.mul_le_mul hwin (by omega)
  -- `k`, the divisor and the guarded weight as numbers.
  have hcastk : ((n : Int) * (n + 1)) = ((n * (n + 1) : Nat) : Int) := by
    rw [Int.natCast_mul]
    rfl
  have hm : int64Exact ((n : Int) * (n + 1)) = some ((n * (n + 1) : Nat) : Int) := by
    rw [hcastk, int64Exact, if_pos (by omega)]
  have hmt : int64Exact (((n * (n + 1) : Nat) : Int) * targetSpacing) =
      some (((n * (n + 1) : Nat) : Int) * targetSpacing) := by
    rw [int64Exact, targetSpacing, if_pos (by omega)]
  have hk : ((n * (n + 1) : Nat) : Int) * targetSpacing / 2 = (expectedTime n : Int) := by
    rw [targetSpacing, expectedTime_eq]
    omega
  have hguard : (if weightedBefore prev n n < (expectedTime n : Int) / 10 then
      (expectedTime n : Int) / 10 else weightedBefore prev n n) = (guardedTime prev n : Int) := by
    rw [guardedTime]
    split <;> omega
  have hle := guardedTime_le prev n
  obtain ⟨hexp, hpos, hprod⟩ := expectedTime_bounds hn hwin
  have hd : uint64Exact ((n : Int) * (expectedTime n : Int)) =
      some (UInt64.ofInt (n * expectedTime n : Nat)) := by
    rw [uint64Exact, ← Int.natCast_mul, if_pos (by omega)]
  have hf : uint64Exact (guardedTime prev n : Int) = some (UInt64.ofInt (guardedTime prev n)) := by
    rw [uint64Exact, if_pos (by omega)]
  have hdn := ofInt_natCast_toNat (n := n * expectedTime n) (by omega)
  have hfn := ofInt_natCast_toNat (n := guardedTime prev n) (by omega)
  have hwords : UInt64.ofNat n * UInt64.ofInt (expectedTime n) =
      UInt64.ofInt (n * expectedTime n : Nat) := by
    have hn64 : UInt64.ofNat n = UInt64.ofInt (n : Int) := UInt64.toNat_inj.mp (by
      rw [ofInt_natCast_toNat (by omega), UInt64.toNat_ofNat', Nat.mod_eq_of_lt (by omega)])
    rw [Int.natCast_mul, UInt64.ofInt_mul, hn64]
  generalize UInt64.ofInt (n * expectedTime n : Nat) = divisor at hd hdn hwords
  generalize hfactor : UInt64.ofInt (guardedTime prev n) = factor at hf hfn
  have hdne : divisor ≠ 0 := fun h0 => by
    rw [h0, UInt64.toNat_zero] at hdn
    omega
  have hdiv : (total.div64 divisor).toNat = targetsBefore prev n n / (n * expectedTime n) := by
    rw [U256.div64_toNat (by omega), htotal, hdn]
  have hscaled := scaled_le (targetsBefore prev n n) prev hn
  have hfit : (total.div64 divisor).toNat * factor.toNat < 2 ^ 256 := by
    rw [hdiv, hfn]
    omega
  have hmul : ((total.div64 divisor).mul64 factor).toNat =
      targetsBefore prev n n / (n * expectedTime n) * guardedTime prev n := by
    rw [U256.mul64_toNat, Nat.mod_eq_of_lt hfit, hdiv, hfn]
  refine ⟨if ((total.div64 divisor).mul64 factor).gt p.powLimit ∨
      ((total.div64 divisor).mul64 factor).isZero then p.powLimit
    else (total.div64 divisor).mul64 factor, ?_, ?_, ?_⟩
  · simp only [windowTarget, clip, U256.gt_iff, U256.isZero_iff, hmul]
    split
    · rfl
    · exact hmul
  · simp only [hcastk, hk, hloop, hguard, hwords, hfactor,
      if_neg (Nat.not_lt.mpr hn)]
  · have hdivExact : total.div64Exact divisor = some (total.div64 divisor) := by
      rw [U256.div64Exact, if_neg hdne]
    have hmulExact : (total.div64 divisor).mul64Exact factor =
        some ((total.div64 divisor).mul64 factor) := by
      rw [U256.mul64Exact, if_pos hfit]
    rw [if_neg (Nat.not_lt.mpr hn)]
    rw [bind_of_eq hm, bind_of_eq hmt, hk, bind_of_eq hexact]
    dsimp only
    rw [hguard, bind_of_eq hd, bind_of_eq hdivExact, bind_of_eq hf, bind_of_eq hmulExact]

/-! ## Histories of any length -/

/-- The targets of the `n` newest headers together. -/
def windowSum (history : List HeaderInfo) (n : Nat) : Nat :=
  ((history.take n).map HeaderInfo.target).sum

/-- The header at an index, as `next_bits` asks for it. -/
def readAt (history : List HeaderInfo) (i : Nat) : HeaderInfo :=
  (headersRead history).getD i default

theorem readAt_eq (history : List HeaderInfo) {i : Nat} (h : i ≤ lwmaWindow) :
    readAt history i = history.getD i default := by
  have hlt : i < lwmaWindow + 2 := by omega
  rw [readAt, headersRead, List.getD_eq_getElem?_getD, List.getElem?_take_of_lt hlt,
    ← List.getD_eq_getElem?_getD]

theorem sum_targets (l : List HeaderInfo) {n : Nat} (h : n ≤ l.length) :
    ∑ i ∈ Finset.range n, (l.getD i default).target = windowSum l n := by
  induction n with
  | zero => rfl
  | succ n ih =>
      have hlt : n < l.length := h
      have htake : l.take (n + 1) = l.take n ++ [l[n]] := (List.take_concat_get' l n hlt).symm
      have hget : l.getD n default = l[n] := by
        rw [List.getD_eq_getElem?_getD, List.getElem?_eq_getElem hlt, Option.getD_some]
      rw [Finset.sum_range_succ, ih (Nat.le_of_succ_le h), hget, windowSum, windowSum, htake,
        List.map_append, List.sum_append, List.map_singleton, List.sum_singleton]

theorem targetsBefore_eq (history : List HeaderInfo) {n : Nat} (hn : n ≤ lwmaWindow)
    (hlen : n ≤ history.length) :
    targetsBefore (readAt history) n n = windowSum history n := by
  have hreflect := Finset.sum_range_reflect (fun i => (readAt history i).target) n
  rw [← sum_targets history hlen, targetsBefore]
  calc ∑ i ∈ Finset.range n, (readAt history (n - (i + 1))).target
      = ∑ i ∈ Finset.range n, (readAt history (n - 1 - i)).target :=
        Finset.sum_congr rfl fun i _ => by rw [Nat.sub_sub, Nat.add_comm 1 i]
    _ = ∑ i ∈ Finset.range n, (readAt history i).target := hreflect
    _ = ∑ i ∈ Finset.range n, (history.getD i default).target :=
        Finset.sum_congr rfl fun i hi => by
          rw [readAt_eq history (Nat.le_trans (Nat.le_of_lt (Finset.mem_range.mp hi)) hn)]

/-- The networks that retarget, with what the arithmetic needs of their limit. -/
theorem limit_bounds [Crypto] {net : Network} (h : (paramsFor net).noRetarget = false) :
    0 < (paramsFor net).powLimit.toNat ∧ (paramsFor net).powLimit.toNat < 2 ^ 240 := by
  cases net with
  | main =>
      show 0 < (limitBelow 236).toNat ∧ (limitBelow 236).toNat < 2 ^ 240
      decide
  | test =>
      show 0 < (limitBelow 240).toNat ∧ (limitBelow 240).toNat < 2 ^ 240
      decide
  | regtest => cases h

/-- The target in force after a history. -/
def targetAfter (p : ChainParams) (history : List HeaderInfo) : Nat :=
  (U256.ofCompact (bitsAfter p history)).toNat

section Settled

variable {p : ChainParams} {newest : HeaderInfo} {older : List HeaderInfo}

theorem readable_history (hp : p.powLimit.toNat < 2 ^ 240)
    (hv : ∀ h ∈ newest :: older, h.Valid p) :
    Readable p (min lwmaWindow older.length) (headersRead (newest :: older)) where
  window := Nat.min_le_left ..
  enough := by
    rw [headersRead, List.length_take, List.length_cons]
    omega
  valid h hh := hv h (List.mem_of_mem_take hh)
  limit := hp

/-- Too short a window repeats the newest header's bits. -/
theorem bitsAfter_short (hret : p.noRetarget = false) (hn : min lwmaWindow older.length < 3) :
    bitsAfter p (newest :: older) = newest.bits ∧
      nextBitsExact older.length (headersRead (newest :: older)) p = some newest.bits := by
  rw [bitsAfter, List.length_cons, Nat.add_sub_cancel, nextBits, nextBitsExact, hret]
  simp only [Bool.false_eq_true, if_false, if_pos hn]
  exact ⟨rfl, rfl⟩

/-- A full window's target, and the bits it is written in. -/
theorem bitsAfter_full (hp : p.powLimit.toNat < 2 ^ 240) (hret : p.noRetarget = false)
    (hv : ∀ h ∈ newest :: older, h.Valid p) (hn : 3 ≤ min lwmaWindow older.length) :
    ∃ next : U256,
      next.toNat = windowTarget p.powLimit.toNat (readAt (newest :: older))
        (min lwmaWindow older.length) ∧
      bitsAfter p (newest :: older) = next.toCompact ∧
      nextBitsExact older.length (headersRead (newest :: older)) p = some next.toCompact := by
  obtain ⟨next, hnext, hbits, hexact⟩ := (readable_history hp hv).nextBits_eq hn hret
  exact ⟨next, hnext, hbits, hexact⟩

theorem targetAfter_full (hp : 0 < p.powLimit.toNat ∧ p.powLimit.toNat < 2 ^ 240)
    (hret : p.noRetarget = false) (hv : ∀ h ∈ newest :: older, h.Valid p)
    (hn : 3 ≤ min lwmaWindow older.length) :
    targetAfter p (newest :: older) = Leading.cut U256.dropBits
      (windowTarget p.powLimit.toNat (readAt (newest :: older)) (min lwmaWindow older.length)) := by
  obtain ⟨next, hnext, hbits, -⟩ := bitsAfter_full hp.2 hret hv hn
  have hpos : 0 < next.toNat := by
    rw [hnext]
    exact clip_pos hp.1 _
  rw [targetAfter, hbits, U256.ofCompact, (U256.fromCompact_toCompact hpos).1, hnext]

/-- The bits that follow a valid history are valid. -/
theorem validBits_after (hp : 0 < p.powLimit.toNat ∧ p.powLimit.toNat < 2 ^ 240)
    (hret : p.noRetarget = false) (hv : ∀ h ∈ newest :: older, h.Valid p) :
    ValidBits p (bitsAfter p (newest :: older)) := by
  rcases Nat.lt_or_ge (min lwmaWindow older.length) 3 with hn | hn
  · rw [(bitsAfter_short hret hn).1]
    exact (hv newest List.mem_cons_self).bits
  · obtain ⟨next, hnext, hbits, -⟩ := bitsAfter_full hp.2 hret hv hn
    have hpos : 0 < next.toNat := by
      rw [hnext]
      exact clip_pos hp.1 _
    obtain ⟨hval, hneg, hovf⟩ := U256.fromCompact_toCompact hpos
    rw [hbits]
    refine ⟨hneg, hovf, ?_, ?_⟩
    · rw [U256.ofCompact, hval]
      exact Leading.cut_pos (fun l => U256.dropBits_lt) hpos
    · rw [U256.ofCompact, hval]
      calc Leading.cut U256.dropBits next.toNat ≤ next.toNat := Leading.cut_le ..
        _ ≤ p.powLimit.toNat := by
            rw [hnext]
            exact clip_le _ _

theorem nextBitsExact_eq (hp : p.powLimit.toNat < 2 ^ 240) (hret : p.noRetarget = false)
    (hv : ∀ h ∈ newest :: older, h.Valid p) :
    nextBitsExact older.length (headersRead (newest :: older)) p =
      some (bitsAfter p (newest :: older)) := by
  rcases Nat.lt_or_ge (min lwmaWindow older.length) 3 with hn | hn
  · obtain ⟨hbits, hexact⟩ := bitsAfter_short hret hn
    rw [hexact, hbits]
  · obtain ⟨next, -, hbits, hexact⟩ := bitsAfter_full hp hret hv hn
    rw [hexact, hbits]

/-- A sum that survives the division is scaled by six at most. -/
theorem targetAfter_le_average (hp : 0 < p.powLimit.toNat ∧ p.powLimit.toNat < 2 ^ 240)
    (hret : p.noRetarget = false) (hv : ∀ h ∈ newest :: older, h.Valid p)
    (hn : 3 ≤ min lwmaWindow older.length)
    (hsum : min lwmaWindow older.length * expectedTime (min lwmaWindow older.length) ≤
      windowSum (newest :: older) (min lwmaWindow older.length)) :
    min lwmaWindow older.length * targetAfter p (newest :: older) ≤
      6 * windowSum (newest :: older) (min lwmaWindow older.length) := by
  have hlen : min lwmaWindow older.length ≤ (newest :: older).length := by
    rw [List.length_cons]
    omega
  have htargets := targetsBefore_eq (newest :: older) (Nat.min_le_left ..) hlen
  have hwin : min lwmaWindow older.length ≤ 60 := Nat.min_le_left ..
  rw [targetAfter_full hp hret hv hn, windowTarget, htargets]
  generalize readAt (newest :: older) = prev
  generalize windowSum (newest :: older) (min lwmaWindow older.length) = sum at *
  generalize min lwmaWindow older.length = n at *
  have hdivisor : 0 < n * expectedTime n := (expectedTime_bounds hn hwin).2.1
  have hscaled : 0 < sum / (n * expectedTime n) * guardedTime prev n :=
    Nat.mul_pos (Nat.div_pos hsum hdivisor) (guardedTime_pos prev hn)
  calc n * Leading.cut U256.dropBits (clip p.powLimit.toNat _)
      ≤ n * (sum / (n * expectedTime n) * guardedTime prev n) :=
        Nat.mul_le_mul_left _ (Nat.le_trans (Leading.cut_le ..) (clip_le_self hscaled))
    _ ≤ n * (sum / (n * expectedTime n) * (6 * expectedTime n)) :=
        Nat.mul_le_mul_left _ (Nat.mul_le_mul_left _ (guardedTime_le prev n))
    _ = 6 * (sum / (n * expectedTime n) * (n * expectedTime n)) := by ring
    _ ≤ 6 * sum := Nat.mul_le_mul_left _ (Nat.div_mul_le_self ..)

/-- The newest header's time stands in the last interval alone, as its end. -/
theorem weightedBefore_mono {prev prev' : Nat → HeaderInfo} {n : Nat}
    (htime : int64 (prev 0).time ≤ int64 (prev' 0).time)
    (hrest : ∀ i, prev (i + 1) = prev' (i + 1)) (j : Nat) :
    weightedBefore prev n j ≤ weightedBefore prev' n j := by
  refine Finset.sum_le_sum fun i _ => ?_
  refine Int.mul_le_mul_of_nonneg_right ?_ (Int.natCast_nonneg _)
  have hend : int64 (prev (n - (i + 1))).time ≤ int64 (prev' (n - (i + 1))).time := by
    cases n - (i + 1) with
    | zero => exact htime
    | succ k => rw [hrest k]
  rw [solveTime, solveTime, hrest]
  omega

theorem targetAfter_mono (hp : 0 < p.powLimit.toNat ∧ p.powLimit.toNat < 2 ^ 240)
    (hret : p.noRetarget = false) (hv : ∀ h ∈ newest :: older, h.Valid p) {later : UInt64}
    (hlater : newest.time ≤ later) (h62 : later.toNat < 2 ^ 62) :
    targetAfter p (newest :: older) ≤ targetAfter p ({ newest with time := later } :: older) := by
  have hv' : ∀ h ∈ { newest with time := later } :: older, h.Valid p := by
    intro h hh
    rcases List.mem_cons.mp hh with rfl | hmem
    · exact ⟨(hv newest List.mem_cons_self).bits, h62⟩
    · exact hv h (List.mem_cons_of_mem _ hmem)
  rcases Nat.lt_or_ge (min lwmaWindow older.length) 3 with hn | hn
  · rw [targetAfter, targetAfter, (bitsAfter_short hret hn).1, (bitsAfter_short hret hn).1]
  · have hwin : min lwmaWindow older.length ≤ lwmaWindow := Nat.min_le_left ..
    have hlen : ∀ h : HeaderInfo, min lwmaWindow older.length ≤ (h :: older).length := by
      intro h
      rw [List.length_cons]
      omega
    have hsame : windowSum ({ newest with time := later } :: older)
        (min lwmaWindow older.length) = windowSum (newest :: older)
        (min lwmaWindow older.length) := by
      cases min lwmaWindow older.length with
      | zero => rfl
      | succ k => rfl
    rw [targetAfter_full hp hret hv hn, targetAfter_full hp hret hv' hn]
    refine Leading.cut_mono U256.dropBits_mono (fun l => U256.dropBits_lt) ?_
    rw [windowTarget, windowTarget, targetsBefore_eq _ hwin (hlen _),
      targetsBefore_eq _ hwin (hlen _), hsame]
    have htime := (hv newest List.mem_cons_self).time
    have hguard : guardedTime (readAt (newest :: older)) (min lwmaWindow older.length) ≤
        guardedTime (readAt ({ newest with time := later } :: older))
          (min lwmaWindow older.length) := by
      have hend : int64 newest.time ≤ int64 later := by
        rw [int64_of_lt (by omega), int64_of_lt (by omega)]
        exact Int.ofNat_le.mpr (UInt64.le_iff_toNat_le.mp hlater)
      have hrest : ∀ i, readAt (newest :: older) (i + 1) =
          readAt ({ newest with time := later } :: older) (i + 1) := fun i => rfl
      have hmono : weightedBefore (readAt (newest :: older)) (min lwmaWindow older.length)
          (min lwmaWindow older.length) ≤
            weightedBefore (readAt ({ newest with time := later } :: older))
              (min lwmaWindow older.length) (min lwmaWindow older.length) :=
        weightedBefore_mono hend hrest _
      rw [guardedTime, guardedTime]
      omega
    refine clip_mono _ (Nat.mul_le_mul_left _ hguard) ?_
    have hg := guardedTime_pos (readAt (newest :: older)) hn
    have hg' := guardedTime_pos (readAt ({ newest with time := later } :: older)) hn
    rw [Nat.mul_eq_zero, Nat.mul_eq_zero]
    omega

end Settled

/-! ## The tree -/

namespace Chainstate

variable [Crypto] {s : Chainstate} {g : Hash256}

/-- The headers from a block down to genesis. -/
def history (s : Chainstate) (b : Hash256) : List HeaderInfo :=
  s.headersBack ((s.entry b).height + 1) (some b)

theorem headersBack_history (hw : Nodes.Wf g s.node s.nextSeq) {b : Hash256}
    (hb : (s.node b).isSome) (k : Nat) :
    s.headersBack k (some b) = (s.history b).take k ∧
      (s.history b).length = (s.entry b).height + 1 := by
  obtain ⟨n, hn⟩ := Option.isSome_iff_exists.mp hb
  have hh : (s.entry b).height = n.height := by rw [entry_height, Nodes.height_eq hn]
  rw [history, hh]
  clear hh
  generalize hm : n.height = m
  induction m generalizing b n k with
  | zero =>
      have hprev : (s.entry b).prev = none := by
        rw [entry_prev, Nodes.parent_eq hn]
        cases hp : n.prev with
        | none => rfl
        | some p =>
            obtain ⟨-, q, -, hq, -⟩ := hw.parent b n p hn hp
            omega
      have hone : s.headersBack 1 (some b) =
          [⟨(s.entry b).header.time, (s.entry b).header.bits⟩] := rfl
      refine ⟨?_, by rw [hone]; rfl⟩
      cases k with
      | zero => rfl
      | succ k =>
          rw [hone, headersBack, hprev, List.take_succ_cons, List.take_nil]
          cases k <;> rfl
  | succ m ih =>
      cases hp : n.prev with
      | none =>
          have := (hw.root b n hn hp).2
          omega
      | some p =>
          obtain ⟨-, q, hq, hqh, -⟩ := hw.parent b n p hn hp
          have hprev : (s.entry b).prev = some p := by rw [entry_prev, Nodes.parent_eq hn, hp]
          have hqm : q.height = m := by omega
          have hstep : s.headersBack (m + 1 + 1) (some b) =
              ⟨(s.entry b).header.time, (s.entry b).header.bits⟩ ::
                s.headersBack (m + 1) (some p) := by rw [headersBack, hprev]
          have hlen := (ih (by rw [hq]; rfl) 0 q hq hqm).2
          refine ⟨?_, by rw [hstep, List.length_cons, hlen]⟩
          cases k with
          | zero => rfl
          | succ k =>
              have htake := (ih (by rw [hq]; rfl) k q hq hqm).1
              rw [hstep, List.take_succ_cons, ← htake, headersBack, hprev]

/-- `next_bits_for` is the retarget over the block's own history. -/
theorem nextBitsFor_eq (hw : Nodes.Wf g s.node s.nextSeq) {b : Hash256}
    (hb : (s.node b).isSome) (p : ChainParams) :
    s.nextBitsFor p b = bitsAfter p (s.history b) := by
  obtain ⟨hback, hlen⟩ := headersBack_history hw hb (lwmaWindow + 2)
  rw [nextBitsFor, bitsAfter, hback, hlen]
  rfl

end Chainstate

/-! ## The retarget -/

/-- On valid bits `check_pow` is the comparison with the target. -/
theorem ValidBits.checkPow_eq {p : ChainParams} {bits : UInt32} (h : ValidBits p bits)
    (hash : Hash256) :
    checkPow hash bits p = (U256.fromHash hash).le (U256.ofCompact bits) := by
  have hpos := h.pos
  have hle := h.le_limit
  rw [U256.ofCompact] at hpos hle
  have hzero : (U256.fromCompact bits).1.isZero = false := by
    rw [Bool.eq_false_iff, ne_eq, U256.isZero_iff]
    omega
  have hgt : (U256.fromCompact bits).1.gt p.powLimit = false := by
    rw [Bool.eq_false_iff, ne_eq, U256.gt_iff]
    omega
  simp only [checkPow, h.notNegative, h.notOverflow, hzero, hgt, Bool.false_eq_true, or_self,
    if_false, U256.ofCompact]

/-- `check_pow` takes valid bits from a hash that is low enough. -/
theorem ValidBits.checkPow_zero {p : ChainParams} {bits : UInt32} (h : ValidBits p bits) :
    checkPow 0 bits p = true := by
  rw [h.checkPow_eq, U256.le_iff]
  exact Nat.zero_le _

/-- On a network that retargets, after any history of valid headers: every
header read exists and nothing wraps; the bits are valid and some hash meets
them; a target sum that the division leaves positive gives at most six times the
window's average; and a later newest time never gives a lower target. -/
theorem retarget_safe [Crypto] {net : Network} (hret : (paramsFor net).noRetarget = false)
    {newest : HeaderInfo} {older : List HeaderInfo}
    (hv : ∀ h ∈ newest :: older, h.Valid (paramsFor net)) :
    nextBitsExact older.length (headersRead (newest :: older)) (paramsFor net) =
        some (bitsAfter (paramsFor net) (newest :: older)) ∧
      ValidBits (paramsFor net) (bitsAfter (paramsFor net) (newest :: older)) ∧
      (∃ hash, checkPow hash (bitsAfter (paramsFor net) (newest :: older))
        (paramsFor net) = true) ∧
      (3 ≤ min lwmaWindow older.length →
        min lwmaWindow older.length * expectedTime (min lwmaWindow older.length) ≤
          windowSum (newest :: older) (min lwmaWindow older.length) →
        min lwmaWindow older.length * targetAfter (paramsFor net) (newest :: older) ≤
          6 * windowSum (newest :: older) (min lwmaWindow older.length)) ∧
      ∀ later : UInt64, newest.time ≤ later → later.toNat < 2 ^ 62 →
        targetAfter (paramsFor net) (newest :: older) ≤
          targetAfter (paramsFor net) ({ newest with time := later } :: older) := by
  have hp := limit_bounds hret
  have hbits := validBits_after hp hret hv
  exact ⟨nextBitsExact_eq hp.2 hret hv, hbits, ⟨0, hbits.checkPow_zero⟩,
    targetAfter_le_average hp hret hv, fun later => targetAfter_mono hp hret hv⟩

/-- A main-network header with the starting difficulty. -/
def startingHeader (time : UInt64) : HeaderInfo := ⟨time, 0x1d040000⟩

theorem startingHeader_valid [Crypto] {time : UInt64} (h : time.toNat < 2 ^ 62) :
    (startingHeader time).Valid (paramsFor .main) := by
  have hlimit : (paramsFor .main).powLimit = limitBelow 236 := rfl
  refine ⟨⟨?_, ?_, ?_, ?_⟩, h⟩
  · show (U256.fromCompact 0x1d040000).2.1 = false
    decide
  · show (U256.fromCompact 0x1d040000).2.2 = false
    decide
  · show 0 < (U256.ofCompact 0x1d040000).toNat
    decide
  · rw [hlimit]
    show (U256.ofCompact 0x1d040000).toNat ≤ _
    decide

/-- Four headers on time, and the newest one moved by a minute. -/
theorem retarget_safe_four :
    letI := flatCrypto
    ValidBits (paramsFor .main) (bitsAfter (paramsFor .main)
        ([1000, 880, 760, 640].map startingHeader)) ∧
      targetAfter (paramsFor .main) ([1000, 880, 760, 640].map startingHeader) ≤
        targetAfter (paramsFor .main) ([1060, 880, 760, 640].map startingHeader) := by
  let _ := flatCrypto
  have hv : ∀ h ∈ [1000, 880, 760, 640].map startingHeader, h.Valid (paramsFor .main) := by
    intro h hh
    obtain ⟨t, ht, rfl⟩ := List.mem_map.mp hh
    have hall : ([1000, 880, 760, 640] : List UInt64).all (fun t => t.toNat < 2 ^ 62) = true := by
      decide
    exact startingHeader_valid (of_decide_eq_true (List.all_eq_true.mp hall t ht))
  have hret : (paramsFor .main).noRetarget = false := rfl
  have hsafe := retarget_safe hret hv
  exact ⟨hsafe.2.1, hsafe.2.2.2.2 1060 (by decide) (by decide)⟩

end QuantCore
