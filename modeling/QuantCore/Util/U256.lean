import QuantCore.Util.Types

/-!
# 256-bit unsigned arithmetic

Four 64-bit limbs, as in `util/u256`, with carries in 128 bits. The limbs are
the representation the code computes on; `toNat` is the number they denote.
-/

namespace QuantCore

/-- Little-endian limbs: `w0` is the least significant. -/
structure U256 where
  w0 : UInt64 := 0
  w1 : UInt64 := 0
  w2 : UInt64 := 0
  w3 : UInt64 := 0
deriving DecidableEq, Repr, Inhabited

namespace U256

def ofU64 (v : UInt64) : U256 := { w0 := v }

/-- The number the limbs denote. -/
def toNat (a : U256) : Nat :=
  a.w0.toNat + 2 ^ 64 * (a.w1.toNat + 2 ^ 64 * (a.w2.toNat + 2 ^ 64 * a.w3.toNat))

/-- The limbs of a number, the high bits dropped. -/
def ofNat (n : Nat) : U256 where
  w0 := UInt64.ofNat n
  w1 := UInt64.ofNat (n >>> 64)
  w2 := UInt64.ofNat (n >>> 128)
  w3 := UInt64.ofNat (n >>> 192)

def isZero (a : U256) : Bool := (a.w0 ||| a.w1 ||| a.w2 ||| a.w3) == 0

/-- `cmp`: limb by limb from the top. -/
def cmp (a b : U256) : Ordering :=
  if a.w3 ≠ b.w3 then (if a.w3 < b.w3 then .lt else .gt)
  else if a.w2 ≠ b.w2 then (if a.w2 < b.w2 then .lt else .gt)
  else if a.w1 ≠ b.w1 then (if a.w1 < b.w1 then .lt else .gt)
  else if a.w0 ≠ b.w0 then (if a.w0 < b.w0 then .lt else .gt)
  else .eq

def lt (a b : U256) : Bool := cmp a b == .lt
def gt (a b : U256) : Bool := cmp a b == .gt
def le (a b : U256) : Bool := cmp a b != .gt
def ge (a b : U256) : Bool := cmp a b != .lt

/-- One limb of `+=`: sum and carry of the 128-bit accumulator. -/
def addLimb (c : Nat) (a b : UInt64) : UInt64 × Nat :=
  let s := c + (a.toNat + b.toNat)
  (UInt64.ofNat s, s >>> 64)

def add (a b : U256) : U256 :=
  let (r0, c) := addLimb 0 a.w0 b.w0
  let (r1, c) := addLimb c a.w1 b.w1
  let (r2, c) := addLimb c a.w2 b.w2
  let (r3, _) := addLimb c a.w3 b.w3
  ⟨r0, r1, r2, r3⟩

/-- One limb of `-=`: difference and borrow. -/
def subLimb (borrow a b : UInt64) : UInt64 × UInt64 :=
  (a - b - borrow, if a < b ∨ a - b < borrow then 1 else 0)

def sub (a b : U256) : U256 :=
  let (r0, c) := subLimb 0 a.w0 b.w0
  let (r1, c) := subLimb c a.w1 b.w1
  let (r2, c) := subLimb c a.w2 b.w2
  let (r3, _) := subLimb c a.w3 b.w3
  ⟨r0, r1, r2, r3⟩

/-- `w[i]`, with zero outside the array. -/
def limb (a : U256) : Nat → UInt64
  | 0 => a.w0
  | 1 => a.w1
  | 2 => a.w2
  | 3 => a.w3
  | _ => 0

def ofLimbs (f : Nat → UInt64) : U256 := ⟨f 0, f 1, f 2, f 3⟩

def shl (a : U256) (s : Nat) : U256 :=
  if s ≥ 256 then {} else
  let l := s / 64
  let bit := s % 64
  ofLimbs fun i =>
    if i < l then 0
    else
      let src := i - l
      let hi := a.limb src <<< UInt64.ofNat bit
      if bit ≠ 0 ∧ src > 0 then hi ||| (a.limb (src - 1) >>> UInt64.ofNat (64 - bit))
      else hi

def shr (a : U256) (s : Nat) : U256 :=
  if s ≥ 256 then {} else
  let l := s / 64
  let bit := s % 64
  ofLimbs fun i =>
    let src := i + l
    if src > 3 then 0
    else
      let lo := a.limb src >>> UInt64.ofNat bit
      if bit ≠ 0 ∧ src < 3 then lo ||| (a.limb (src + 1) <<< UInt64.ofNat (64 - bit))
      else lo

/-- One limb of `mul64`: product and carry. -/
def mulLimb (c : Nat) (a m : UInt64) : UInt64 × Nat :=
  let s := c + a.toNat * m.toNat
  (UInt64.ofNat s, s >>> 64)

/-- `mul64`, truncating. -/
def mul64 (a : U256) (m : UInt64) : U256 :=
  let (r0, c) := mulLimb 0 a.w0 m
  let (r1, c) := mulLimb c a.w1 m
  let (r2, c) := mulLimb c a.w2 m
  let (r3, _) := mulLimb c a.w3 m
  ⟨r0, r1, r2, r3⟩

/-- One limb of `div64`: quotient digit and remainder. -/
def divLimb (rem : Nat) (a d : UInt64) : UInt64 × Nat :=
  let cur := (rem <<< 64) ||| a.toNat
  (UInt64.ofNat (cur / d.toNat), cur % d.toNat)

def div64 (a : U256) (d : UInt64) : U256 :=
  let (r3, rem) := divLimb 0 a.w3 d
  let (r2, rem) := divLimb rem a.w2 d
  let (r1, rem) := divLimb rem a.w1 d
  let (r0, _) := divLimb rem a.w0 d
  ⟨r0, r1, r2, r3⟩

/-- Number of significant bits, 64 minus the leading zeros of the top limb. -/
def bits (a : U256) : Nat :=
  if a.w3 ≠ 0 then 3 * 64 + (Nat.log2 a.w3.toNat + 1)
  else if a.w2 ≠ 0 then 2 * 64 + (Nat.log2 a.w2.toNat + 1)
  else if a.w1 ≠ 0 then 64 + (Nat.log2 a.w1.toNat + 1)
  else if a.w0 ≠ 0 then Nat.log2 a.w0.toNat + 1
  else 0

/-- `r.w[i] |= x`. -/
def orLimb (a : U256) (i : Nat) (x : UInt64) : U256 :=
  ofLimbs fun j => if j = i then a.limb j ||| x else a.limb j

/-- The long-division loop, from bit `i - 1` down to bit 0. -/
def divLoop (a b : U256) : Nat → U256 → U256 → U256
  | 0, q, _ => q
  | i + 1, q, r =>
      let r := orLimb (shl r 1) 0 ((a.limb (i / 64) >>> UInt64.ofNat (i % 64)) &&& 1)
      if r.ge b then
        divLoop a b i (orLimb q (i / 64) (1 <<< UInt64.ofNat (i % 64))) (r.sub b)
      else divLoop a b i q r

def div (a b : U256) : U256 :=
  if b.isZero then {} else divLoop a b a.bits {} {}

def compl (a : U256) : U256 := ⟨~~~ a.w0, ~~~ a.w1, ~~~ a.w2, ~~~ a.w3⟩

/-- Big-endian bytes to a number: the hash already is that number. -/
def fromHash (h : Hash256) : U256 := ofNat h.toNat

/-- The loop of `from_hash`, from byte `i` on; `fromHash` is what it comes to. -/
def fromHashLoop : Nat → Bytes → U256 → U256
  | _, [], r => r
  | i, b :: bs, r =>
      fromHashLoop (i + 1) bs
        (orLimb r ((31 - i) / 8) (b.toUInt64 <<< UInt64.ofNat (8 * ((31 - i) % 8))))

/-- A number to big-endian bytes. -/
def toHash (a : U256) : Hash256 :=
  Hash256.ofBytes ((List.range 32).map fun i =>
    (a.limb ((31 - i) / 8) >>> UInt64.ofNat (8 * ((31 - i) % 8))).toUInt8)

/-- `from_compact`: the value, and the negative and overflow flags. -/
def fromCompact (bits : UInt32) : U256 × Bool × Bool :=
  let size := (bits >>> 24).toNat
  let word := bits &&& 0x007fffff
  let word' := if size ≤ 3 then word >>> UInt32.ofNat (8 * (3 - size)) else word
  let r :=
    if size ≤ 3 then ofU64 word'.toUInt64
    else shl (ofU64 word.toUInt64) (8 * (size - 3))
  (r, word' ≠ 0 ∧ (bits &&& 0x00800000) ≠ 0,
    word' ≠ 0 ∧ (size > 34 ∨ (word' > 0xff ∧ size > 33) ∨ (word' > 0xffff ∧ size > 32)))

/-- The decoded value alone, where the caller passes no flags. -/
def ofCompact (bits : UInt32) : U256 := (fromCompact bits).1

def toCompact (a : U256) : UInt32 :=
  let size := (a.bits + 7) / 8
  let compact :=
    if size ≤ 3 then (a.w0 <<< UInt64.ofNat (8 * (3 - size))).toUInt32
    else (shr a (8 * (size - 3))).w0.toUInt32
  let (compact, size) :=
    if compact &&& 0x00800000 ≠ 0 then (compact >>> 8, size + 1) else (compact, size)
  compact ||| (UInt32.ofNat size <<< 24)

/-- `work_from_target`: 2^256 / (t + 1), as (~t / (t + 1)) + 1. -/
def workFromTarget (target : U256) : U256 :=
  add (div (compl target) (add target (ofU64 1))) (ofU64 1)

/-! ## The order of the limbs is the order of the numbers -/

theorem cmp_eq_compare (a b : U256) : cmp a b = compare a.toNat b.toNat := by
  have h0 := a.w0.toNat_lt
  have h1 := a.w1.toNat_lt
  have h2 := a.w2.toNat_lt
  have k0 := b.w0.toNat_lt
  have k1 := b.w1.toNat_lt
  have k2 := b.w2.toNat_lt
  rw [cmp, Nat.compare_eq_ite_lt]
  simp only [ne_eq, ← UInt64.toNat_inj, UInt64.lt_iff_toNat_lt, toNat]
  grind

theorem gt_iff {a b : U256} : a.gt b = true ↔ b.toNat < a.toNat := by
  rw [gt, cmp_eq_compare, beq_iff_eq, Nat.compare_eq_gt]

theorem le_iff {a b : U256} : a.le b = true ↔ a.toNat ≤ b.toNat := by
  rw [le, cmp_eq_compare, bne_iff_ne, ne_eq, Nat.compare_eq_gt, Nat.not_lt]

end U256

end QuantCore
