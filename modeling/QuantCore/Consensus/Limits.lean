import QuantCore.Util.Types

/-!
# Hard consensus limits

The constants of `consensus/limits.h` under their own names. Container limits
are numbers; amounts keep the 64-bit type they are compared in.
-/

namespace QuantCore

def maxTxInputs : Nat := 10000
def maxTxOutputs : Nat := 10000
def maxTxOps : Nat := 16
def maxCoinbaseExtra : Nat := 100
def maxBlockSize : Nat := 1000000

/-! ## Emission -/

def emissionCurve : Amount := 75000000 * coinUnits
def emissionSpeed : Amount := 23
def tailSubsidy : Amount := 35 * coinUnits / 10

/-- Sanity bound on any single amount or sum. -/
def maxMoney : Amount := 1000000000 * coinUnits

/-- Smallest non-coinbase QNT output. -/
def dustLimit : Amount := 10000

def minRelayFeePerKb : Amount := 100000

/-! ## Tokens, pools and messages -/

def maxTicker : Nat := 10
def maxTokenName : Nat := 32
def maxTokenUri : Nat := 120
def maxTokenDecimals : UInt8 := 10
def maxTokenSupply : Amount := 10000000000000000000
def minLiquidity : Amount := 1000
def poolFeeBps : UInt64 := 30
def maxMessageText : Nat := 280
def giftPrice : List Amount :=
  [0, coinUnits / 10, coinUnits / 2, 5 * coinUnits, 25 * coinUnits]
def giftCount : Nat := giftPrice.length

/-! ## Timing, difficulty and size reduction -/

def targetSpacing : Int := 120
def lwmaWindow : Nat := 60
def maxFutureDrift : Int := 360
def medianTimeSpan : Nat := 11
def coinbaseMaturityDefault : Nat := 100
def pruneDepth : Nat := 5040
def maxReorgDepth : Nat := pruneDepth

/-- Subsidy of the block after `issued` units have been created. -/
def subsidyAfter (issued : Amount) : Amount :=
  let r := if issued ≥ emissionCurve then 0 else (emissionCurve - issued) >>> emissionSpeed
  if r < tailSubsidy then tailSubsidy else r

/-- The emission curve stepped one height at a time; genesis pays nothing. -/
def issuedSteps : Nat → Amount
  | 0 => 0
  | h + 1 => issuedSteps h + subsidyAfter (issuedSteps h)

/-- `issued_through`. The source memoises this recurrence, which is a function
of the height alone. -/
def issuedThrough (height : UInt64) : Amount := issuedSteps height.toNat

def blockSubsidy (height : UInt64) : Amount :=
  if height = 0 then 0 else subsidyAfter (issuedThrough (height - 1))

end QuantCore
