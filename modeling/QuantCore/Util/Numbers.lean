import QuantCore.Util.Types

/-!
# Numbers in texts

`std::to_string`, and the library functions that read a number from the start of
a text and throw if there is none or it does not fit.
-/

namespace QuantCore

/-! ## Writing -/

/-- `std::to_string` of a size. -/
def sizeText (n : Nat) : Bytes := textBytes (toString n)

/-- `std::to_string` of an `int64_t`. -/
def intText (i : Int64) : Bytes :=
  if i.toInt < 0 then 0x2d :: sizeText i.toInt.natAbs else sizeText i.toInt.natAbs

/-! ## Reading -/

/-- The digits at the start of a text. -/
def digitsOf (s : Bytes) : Bytes := s.takeWhile fun c => 0x30 ≤ c && c ≤ 0x39

def ofDecimal (digits : Bytes) : Nat := digits.foldl (fun v c => v * 10 + (c.toNat - 0x30)) 0

/-- `std::stoul`, base ten, on words of 64 bits; `none` where it throws. A minus
sign negates in 64 bits. -/
def stoul (s : Bytes) : Option UInt64 :=
  let s := s.dropWhile isSpace
  let negative := s.head? = some 0x2d
  let s := if negative ∨ s.head? = some 0x2b then s.drop 1 else s
  let digits := digitsOf s
  if digits = [] ∨ ofDecimal digits ≥ 2 ^ 64 then none
  else if negative then some (0 - UInt64.ofNat (ofDecimal digits))
  else some (UInt64.ofNat (ofDecimal digits))

/-- `std::stoll`, base ten; `none` where it throws. -/
def stoll (s : Bytes) : Option Int64 :=
  let s := s.dropWhile isSpace
  let negative := s.head? = some 0x2d
  let s := if negative ∨ s.head? = some 0x2b then s.drop 1 else s
  let digits := digitsOf s
  let v : Int := if negative then -ofDecimal digits else ofDecimal digits
  if digits = [] ∨ v < -2 ^ 63 ∨ v ≥ 2 ^ 63 then none else some (Int64.ofInt v)

end QuantCore
