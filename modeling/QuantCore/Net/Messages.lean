import QuantCore.Net.Address
import QuantCore.Primitives.Block

/-!
# Messages between peers

The version message, addresses, announcements and blocks, as `net/protocol.cpp`
and the handlers of `net/p2p.cpp` lay them out. A list is announced by its size;
the reader of an item is given by itself, since a handler acts on an item before
it reads the next.
-/

namespace QuantCore

/-! ## The version message -/

/-- `PROTOCOL_VERSION`. -/
def protocolVersion : UInt32 := 3

/-- `SERVICE_FULL`. -/
def serviceFull : UInt64 := 1

/-- `SERVICE_LIGHT_SERVE`. -/
def serviceLightServe : UInt64 := 2

structure VersionMsg where
  version : UInt32 := protocolVersion
  services : UInt64 := 0
  nonce : UInt64 := 0
  height : Int := 0
  listenPort : UInt16 := 0
  agent : Bytes := []
  genesis : Hash256 := 0
  /-- How we see the peer. -/
  yourAddr : NetAddr := default
deriving DecidableEq, Repr

namespace VersionMsg

def encode (v : VersionMsg) : Bytes :=
  Writer.u32le v.version ++ Writer.u64le v.services ++ Writer.u64le v.nonce ++
    Writer.u64le (UInt64.ofInt v.height) ++ Writer.u32le v.listenPort.toUInt32 ++
    Writer.str v.agent ++ Writer.hash v.genesis ++ writeAddr v.yourAddr

def decode : ByteReader VersionMsg := do
  let version ← ByteReader.u32le
  let services ← ByteReader.u64le
  let nonce ← ByteReader.u64le
  let height ← ByteReader.u64le
  let listenPort ← ByteReader.u32le
  let agent ← ByteReader.str 256
  let genesis ← ByteReader.hash
  let yourAddr ← readAddr
  pure { version, services, nonce, height := int64 height
         listenPort := listenPort.toUInt16, agent, genesis, yourAddr }

end VersionMsg

/-! ## Addresses -/

/-- The addresses one `Addr` may carry. -/
def maxAddrItems : Nat := 1000

/-- `Addr`: each address with the time it was last good. -/
def writeAddrs (items : List (NetAddr × Int)) : Bytes :=
  Writer.size items.length ++
    items.flatMap fun a => writeAddr a.1 ++ Writer.u64le (UInt64.ofInt a.2)

/-- An address of `Addr`; its time is read and not used. -/
def readAddrItem : ByteReader NetAddr := do
  let a ← readAddr
  let _ ← ByteReader.u64le
  pure a

/-! ## Announcements -/

/-- The items one `Inv`, `GetData` or `NotFound` may carry. -/
def maxInvItems : Nat := 50000

/-- `INV_TX`. -/
def invTx : UInt8 := 1

/-- `INV_BLOCK`. -/
def invBlock : UInt8 := 2

structure InvItem where
  type : UInt8
  hash : Hash256
deriving DecidableEq, Repr, Inhabited

namespace InvItem

def write (i : InvItem) : Bytes := Writer.u8 i.type ++ Writer.hash i.hash

def read : ByteReader InvItem := do
  let type ← ByteReader.u8
  let hash ← ByteReader.hash
  pure ⟨type, hash⟩

end InvItem

/-- `Inv`, `GetData` and `NotFound`. -/
def writeInv (items : List InvItem) : Bytes :=
  Writer.size items.length ++ items.flatMap InvItem.write

/-! ## Blocks and rejections -/

/-- `BlockMsg`: whether the signatures follow, and the block. -/
def writeBlockMsg (b : Block) (hasWitness : Bool) : Bytes :=
  Writer.u8 (if hasWitness then 1 else 0) ++ if hasWitness then b.fullBytes else b.coreBytes

def readBlockMsg : ByteReader (Block × Bool) := do
  let hasWitness ← ByteReader.u8
  let b ← Block.readCore
  if hasWitness ≠ 0 then
    let b ← b.readWitness
    pure (b, true)
  else pure (b, false)

/-- `Reject` of a transaction, with the reason. -/
def writeReject (id : Hash256) (why : String) : Bytes :=
  Writer.u8 invTx ++ Writer.hash id ++ Writer.str (textBytes why)

end QuantCore
