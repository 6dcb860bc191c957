import QuantCore.Consensus.Params

/-!
# Proof of work and the LWMA retarget

`nextBits` is the linearly weighted moving average over the last solve times:
`prev i` is the header `i` blocks back from the tip.
-/

namespace QuantCore

variable [Crypto]

def checkPow (hash : Hash256) (bits : UInt32) (p : ChainParams) : Bool :=
  let (target, neg, ovf) := U256.fromCompact bits
  if neg ∨ ovf ∨ target.isZero ∨ target.gt p.powLimit then false
  else (U256.fromHash hash).le target

structure HeaderInfo where
  time : UInt64
  bits : UInt32
deriving DecidableEq, Repr, Inhabited

/-- The accumulation loop, oldest to newest: the weighted solve times and the
sum of targets after the weights `j, j + 1, ...` of `rounds` more blocks. -/
def lwmaLoop (prev : Nat → HeaderInfo) (n : Nat) :
    Nat → Nat → Int → U256 → Int × U256
  | 0, _, weighted, sum => (weighted, sum)
  | rounds + 1, j, weighted, sum =>
      let cur := prev (n - j)
      let before := prev (n - j + 1)
      let st := max (-(6 * targetSpacing))
        (min (6 * targetSpacing) (int64 cur.time - int64 before.time))
      lwmaLoop prev n rounds (j + 1) (weighted + st * j)
        (sum.add (U256.ofCompact cur.bits))

def nextBits (tipHeight : Nat) (prev : Nat → HeaderInfo) (p : ChainParams) : UInt32 :=
  if p.noRetarget then p.genesisBits
  else
    let n := min lwmaWindow tipHeight
    if n < 3 then (prev 0).bits
    else
      let k : Int := n * (n + 1) * targetSpacing / 2
      let (weighted, sum) := lwmaLoop prev n n 1 0 {}
      let weighted := if weighted < k / 10 then k / 10 else weighted
      let next := sum.div64 (UInt64.ofNat n * UInt64.ofInt k)
      let next := next.mul64 (UInt64.ofInt weighted)
      let next := if next.gt p.powLimit ∨ next.isZero then p.powLimit else next
      next.toCompact

end QuantCore
