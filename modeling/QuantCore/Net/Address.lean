import QuantCore.Util.Serialize

/-!
# Network addresses

Sixteen bytes and a port; an IPv4 address is mapped into IPv6. Which addresses
are public and which are on the local network is all that the peer code asks of
them.
-/

namespace QuantCore

/-- An address of sixteen bytes, and a port. -/
structure NetAddr where
  ip : Vector UInt8 16
  port : UInt16
deriving DecidableEq, Repr

instance : Inhabited NetAddr := ⟨⟨Vector.replicate 16 0, 0⟩⟩

/-- `write_addr`; the port is big-endian. -/
def writeAddr (a : NetAddr) : Bytes :=
  a.ip.toList ++ Writer.u8 (a.port >>> 8).toUInt8 ++ Writer.u8 a.port.toUInt8

def readAddr : ByteReader NetAddr := do
  let ip ← ByteReader.raw 16
  let high ← ByteReader.u8
  let low ← ByteReader.u8
  pure ⟨Vector.ofFn fun i => ip.getD i 0, high.toUInt16 <<< 8 ||| low.toUInt16⟩

namespace NetAddr

/-- The byte `i` of the address. -/
def byte (a : NetAddr) (i : Nat) : UInt8 := a.ip.toList.getD i 0

/-- `V4_PREFIX`. -/
def v4Prefix : Bytes := List.replicate 10 0 ++ [0xff, 0xff]

def isV4 (a : NetAddr) : Bool := a.ip.toList.take 12 == v4Prefix

def isZero (a : NetAddr) : Bool :=
  if a.isV4 then a.ip.toList.drop 12 == List.replicate 4 0
  else a.ip.toList == List.replicate 16 0

def withPort (a : NetAddr) (port : UInt16) : NetAddr := { a with port }

/-- Loopback, LAN, link-local and unique local addresses. -/
def isLocal (a : NetAddr) : Bool :=
  if a.isV4 then
    let x := a.byte 12
    let y := a.byte 13
    x == 127 || x == 10 || (x == 192 && y == 168) || (x == 172 && y ≥ 16 && y ≤ 31) ||
      (x == 169 && y == 254)
  else
    a.ip.toList == List.replicate 15 0 ++ [1] ||
      (a.byte 0 == 0xfe && a.byte 1 &&& 0xc0 == 0x80) || a.byte 0 &&& 0xfe == 0xfc

/-- A public internet address. -/
def routable (a : NetAddr) : Bool :=
  if a.port = 0 ∨ a.isLocal then false
  else if a.isV4 then
    let x := a.byte 12
    let y := a.byte 13
    !(x == 0 || x ≥ 224) && !(x == 100 && y ≥ 64 && y ≤ 127)
  else
    a.byte 0 &&& 0xe0 == 0x20 &&
      !(a.byte 0 == 0x20 && a.byte 1 == 0x01 && a.byte 2 == 0x0d && a.byte 3 == 0xb8)

/-- `operator<`: the address first, then the port. -/
def le (a b : NetAddr) : Bool :=
  if a.ip = b.ip then a.port ≤ b.port
  else ofLeBytes a.ip.toList.reverse ≤ ofLeBytes b.ip.toList.reverse

end NetAddr

end QuantCore
