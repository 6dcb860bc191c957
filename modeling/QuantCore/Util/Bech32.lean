import QuantCore.Util.Types

/-!
# Bech32m

The text form of addresses: a prefix, the character `1`, the data in groups of
five bits and a checksum of six such groups. Texts are byte strings.
-/

namespace QuantCore

/-- `CHARSET`. -/
def bech32Charset : Bytes := textBytes "qpzry9x8gf2tvdw0s3jn54khce6mua7l"

/-- `BECH32M_CONST`. -/
def bech32mConst : UInt32 := 0x2bc830a3

/-- The character that ends the prefix. -/
def bech32Separator : UInt8 := 0x31

/-! ## The checksum -/

/-- The five conditional terms of a round of `polymod`. -/
def polymodTaps (c0 : UInt8) (c : UInt32) : UInt32 :=
  let c := if c0 &&& 1 ≠ 0 then c ^^^ 0x3b6a57b2 else c
  let c := if c0 &&& 2 ≠ 0 then c ^^^ 0x26508e6d else c
  let c := if c0 &&& 4 ≠ 0 then c ^^^ 0x1ea119fa else c
  let c := if c0 &&& 8 ≠ 0 then c ^^^ 0x3d4233dd else c
  if c0 &&& 16 ≠ 0 then c ^^^ 0x2a1462b3 else c

/-- One round of `polymod`. -/
def polymodStep (c : UInt32) (x : UInt8) : UInt32 :=
  polymodTaps (c >>> 25).toUInt8 (((c &&& 0x1ffffff) <<< 5) ^^^ x.toUInt32)

def polymod (v : Bytes) : UInt32 := v.foldl polymodStep 1

def hrpExpand (hrp : Bytes) : Bytes :=
  hrp.map (fun c : UInt8 => c >>> 5) ++ [0] ++ hrp.map (fun c : UInt8 => c &&& 31)

/-! ## Regrouping bits -/

/-- The variables of `convert_bits`; `acc` is a 32-bit word. -/
structure BitGroups where
  acc : Nat := 0
  bits : Nat := 0
  out : Bytes := []
deriving DecidableEq, Repr

namespace BitGroups

/-- A round of the inner loop: one group comes out. -/
def emit (dst : Nat) (g : BitGroups) : BitGroups :=
  { g with
    bits := g.bits - dst
    out := g.out ++ [UInt8.ofNat ((g.acc >>> (g.bits - dst)) &&& (2 ^ dst - 1))] }

/-- One input value; `none` if it has bits beyond the group size. The inner
loop runs while a whole group is there. -/
def feed (src dst : Nat) (g : BitGroups) (v : UInt8) : Option BitGroups :=
  if v.toNat >>> src ≠ 0 then none
  else
    let g := { g with acc := ((g.acc <<< src) % 2 ^ 32) ||| v.toNat, bits := g.bits + src }
    some ((emit dst)^[g.bits / dst] g)

/-- The bits left over, moved up to fill a group. -/
def rest (dst : Nat) (g : BitGroups) : Nat :=
  ((g.acc <<< (dst - g.bits)) % 2 ^ 32) &&& (2 ^ dst - 1)

def finish (src dst : Nat) (pad : Bool) (g : BitGroups) : Option Bytes :=
  if pad then
    some (if g.bits ≠ 0 then g.out ++ [UInt8.ofNat (g.rest dst)] else g.out)
  else if g.bits ≥ src ∨ g.rest dst ≠ 0 then none
  else some g.out

end BitGroups

def convertBits (input : Bytes) (src dst : Nat) (pad : Bool) : Option Bytes :=
  (input.foldlM (BitGroups.feed src dst) {}).bind (BitGroups.finish src dst pad)

/-! ## Encoding -/

/-- The data part of a text: the groups by their characters. -/
def charsetText (groups : Bytes) : Bytes :=
  groups.map fun x => bech32Charset.getD x.toNat 0

/-- The six groups of the checksum of a prefix and data groups. -/
def bech32Checksum (hrp d5 : Bytes) : Bytes :=
  let mod := polymod (hrpExpand hrp ++ d5 ++ List.replicate 6 0) ^^^ bech32mConst
  (List.range 6).map fun i => ((mod >>> UInt32.ofNat (5 * (5 - i))) &&& 31).toUInt8

def bech32mEncode (hrp data8 : Bytes) : Bytes :=
  let d5 := (convertBits data8 8 5 true).getD []
  hrp ++ [bech32Separator] ++ charsetText d5 ++ charsetText (bech32Checksum hrp d5)

/-! ## Decoding -/

def isLower (c : UInt8) : Bool := 0x61 ≤ c && c ≤ 0x7a
def isUpper (c : UInt8) : Bool := 0x41 ≤ c && c ≤ 0x5a
def toLower (c : UInt8) : UInt8 := if isUpper c then c + 0x20 else c

/-- The position of the last separator, as `rfind` finds it. -/
def lastSeparator (s : Bytes) : Option Nat :=
  (s.reverse.findIdx? (· == bech32Separator)).map fun i => s.length - 1 - i

/-- Every character printable, and not both cases in use. -/
def bech32Text (s : Bytes) : Bool :=
  s.all (fun c => 33 ≤ c && c ≤ 126) && !(s.any isLower && s.any isUpper)

/-- The index of a character in the charset, as `strchr` finds it. -/
def charsetIndex (c : UInt8) : Option UInt8 := (bech32Charset.idxOf? c).map UInt8.ofNat

/-- The data groups after the separator, checksum included, if it verifies. -/
def readGroups (hrp data : Bytes) : Option Bytes :=
  match data.mapM charsetIndex with
  | none => none
  | some d5 => if polymod (hrpExpand hrp ++ d5) = bech32mConst then some d5 else none

def bech32mDecode (input : Bytes) : Option (Bytes × Bytes) :=
  if !bech32Text input then none
  else
    let s := input.map toLower
    match lastSeparator s with
    | none => none
    | some pos =>
        if pos < 1 ∨ pos + 7 > s.length ∨ s.length > 120 then none
        else
          let hrp := s.take pos
          match readGroups hrp (s.drop (pos + 1)) with
          | none => none
          | some d5 =>
              (convertBits (d5.take (d5.length - 6)) 5 8 false).map fun d8 => (hrp, d8)

end QuantCore
