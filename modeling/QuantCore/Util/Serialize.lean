import QuantCore.Lib.Codec
import QuantCore.Util.Types

/-!
# Compact binary serialization

Integers are minimal LEB128 varints, so that every object has exactly one
encoding. A `Writer` appends to a buffer, so a writer method is here the bytes
it appends; a `Reader` is a cursor into a byte string and throws
`SerializeError`, so it is a reader over the remaining bytes with the error's
text.
-/

namespace QuantCore

open Codec

/-! ## Writer -/

namespace Writer

def u8 (v : UInt8) : Bytes := [v]

def u32le (v : UInt32) : Bytes := leBytes 4 v.toNat

def u64le (v : UInt64) : Bytes := leBytes 8 v.toNat

/-- The loop of `varint`: a 64-bit value is below 128 after nine shifts. -/
def varintLoop : Nat → UInt64 → Bytes
  | 0, v => [v.toUInt8]
  | k + 1, v =>
      if v ≥ 0x80 then (v ||| 0x80).toUInt8 :: varintLoop k (v >>> 7)
      else [v.toUInt8]

def varint (v : UInt64) : Bytes := varintLoop 9 v

/-- `varint` of a container's size. -/
def size (n : Nat) : Bytes := varint (UInt64.ofNat n)

def hash (h : Hash256) : Bytes := h.bytes

def bytes (b : Bytes) : Bytes := size b.length ++ b

/-- A `std::string` is a byte string. -/
def str (s : Bytes) : Bytes := bytes s

end Writer

/-! ## Reader -/

/-- A cursor over the bytes that are left; errors carry the text of the
`SerializeError`. -/
abbrev ByteReader := Reader UInt8 String

namespace ByteReader

/-- Take `k` bytes, after the check `need(k)`. -/
def raw (k : Nat) : ByteReader Bytes := fun bs =>
  if k > bs.length then .error "unexpected end of data"
  else .ok (bs.take k, bs.drop k)

def u8 : ByteReader UInt8 := fun bs =>
  match bs with
  | [] => .error "unexpected end of data"
  | b :: rest => .ok (b, rest)

def u32le : ByteReader UInt32 := do
  let b ← raw 4
  pure (UInt32.ofNat (ofLeBytes b))

def u64le : ByteReader UInt64 := do
  let b ← raw 8
  pure (UInt64.ofNat (ofLeBytes b))

/-- The loop of `varint`, with the rounds that are left. -/
def varintLoop : Nat → Nat → UInt64 → ByteReader UInt64
  | 0, _, _ => throw "varint too long"
  | k + 1, shift, v => do
      let c ← u8
      if shift = 63 ∧ c > 1 then throw "varint overflow"
      else
        let v := v ||| ((c &&& 0x7f).toUInt64 <<< UInt64.ofNat shift)
        if c &&& 0x80 = 0 then
          if c = 0 ∧ shift > 0 then throw "non-canonical varint" else pure v
        else varintLoop k (shift + 7) v

def varint : ByteReader UInt64 := varintLoop 10 0 0

def varintMax (max : UInt64) : ByteReader UInt64 := do
  let v ← varint
  if v > max then throw "value too large" else pure v

def hash : ByteReader Hash256 := do
  let b ← raw 32
  pure (Hash256.ofBytes b)

def bytes (max : UInt64) : ByteReader Bytes := do
  let n ← varintMax max
  raw n.toNat

def str (max : UInt64) : ByteReader Bytes := bytes max

end ByteReader

end QuantCore
