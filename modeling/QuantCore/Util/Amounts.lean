import QuantCore.Util.Types

/-!
# Amounts as texts

Two printers and two parsers. `format_amount` and `parse_amount` are for QNT,
which has ten decimals; the RPC server's `format_units` and `parse_units` take
the decimals of a token. A text is a string of characters; the values of the
parsers are 128 bits wide in the source and tested after every digit, so they
are numbers here.
-/

namespace QuantCore

/-- The largest 64-bit value. -/
def maxU64 : Nat := 2 ^ 64 - 1

/-- `c - '0'`, for a digit. -/
def digitValue (c : Char) : Nat := c.toNat - '0'.toNat

/-! ## `util/types.cpp` -/

/-- A round over the whole part. -/
def wholeStep (v : Nat) (c : Char) : Option Nat :=
  if c < '0' || c > '9' then none
  else
    let v := v * 10 + digitValue c
    if v > 1000000000000 then none else some v

/-- A round over the fraction. -/
def fractionStep (fr : Nat) (c : Char) : Option Nat :=
  if c < '0' || c > '9' then none else some (fr * 10 + digitValue c)

def parseAmount (s : String) : Option Amount :=
  let cs := s.toList
  if cs.isEmpty || cs.length > 32 then none
  else
    -- before and after the first dot
    let w := cs.takeWhile (· ≠ '.')
    let f := (cs.dropWhile (· ≠ '.')).drop 1
    if w.isEmpty && f.isEmpty then none
    else if f.length > 10 then none
    else
      match w.foldlM wholeStep 0 with
      | none => none
      | some v =>
          match ((List.range 10).map fun i => f.getD i '0').foldlM fractionStep 0 with
          | none => none
          | some fr =>
              let v := v * coinUnits.toNat + fr
              if v > maxU64 then none else some (UInt64.ofNat v)

/-! ## `node/rpc.cpp` -/

/-- `format_units`: the amount with `dec` decimals, without the zeros at the end. -/
def formatUnits (a : Amount) (dec : Nat) : String :=
  if dec = 10 then formatAmount a
  else
    let s := (toString a.toNat).toList
    if dec = 0 then String.ofList s
    else
      let s := if s.length ≤ dec then List.replicate (dec - s.length + 1) '0' ++ s else s
      let s := s.take (s.length - dec) ++ '.' :: s.drop (s.length - dec)
      let s := (s.reverse.dropWhile (· = '0')).reverse
      String.ofList (if s.getLast? = some '.' then s.dropLast else s)

/-- A round of `parse_units`: the value, and how many digits came after the dot,
none before it. -/
def unitsStep (dec : Nat) (st : Nat × Option Nat) (c : Char) : Option (Nat × Option Nat) :=
  if c = '.' then
    match st.2 with
    | some _ => none
    | none => some (st.1, some 0)
  else if c < '0' || c > '9' then none
  else
    let frac := st.2.map (· + 1)
    if frac.any (· > dec) then none
    else
      let v := st.1 * 10 + digitValue c
      if v > maxU64 then none else some (v, frac)

/-- The loop that fills up the decimals. -/
def scaleUnits : Nat → Nat → Option Nat
  | 0, v => some v
  | n + 1, v => if v * 10 > maxU64 then none else scaleUnits n (v * 10)

def parseUnits (s : String) (dec : Nat) : Option Amount :=
  let cs := s.toList
  if cs.isEmpty then none
  else
    match cs.foldlM (unitsStep dec) (0, none) with
    | none => none
    | some (v, frac) => (scaleUnits (dec - frac.getD 0) v).map UInt64.ofNat

end QuantCore
