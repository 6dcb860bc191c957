import QuantCore.Consensus.Params
import QuantCore.Lib.Incremental
import QuantCore.Net.Protocol
import QuantCore.Util.Serialize

/-!
# Frames

A message on the wire: the network's four bytes, the command, the length and
four bytes of the payload's hash, then the payload. `FrameReader` collects the
bytes of a connection and takes frames off the front of its buffer.
-/

namespace QuantCore

open Incremental

/-- `Cmd`: the number of a command, whether or not one is assigned to it. -/
structure Cmd where
  code : UInt8
deriving DecidableEq, Repr

namespace Cmd

def version : Cmd := ⟨1⟩
def verack : Cmd := ⟨2⟩
def ping : Cmd := ⟨3⟩
def pong : Cmd := ⟨4⟩
def getAddr : Cmd := ⟨5⟩
def addr : Cmd := ⟨6⟩
def inv : Cmd := ⟨7⟩
def getData : Cmd := ⟨8⟩
def notFound : Cmd := ⟨9⟩
def getHeaders : Cmd := ⟨10⟩
def headers : Cmd := ⟨11⟩
def blockMsg : Cmd := ⟨12⟩
def txMsg : Cmd := ⟨13⟩
def getUtxos : Cmd := ⟨14⟩
def utxos : Cmd := ⟨15⟩
def reject : Cmd := ⟨16⟩
def getSnapshot : Cmd := ⟨17⟩
def snapshot : Cmd := ⟨18⟩

end Cmd

/-- `FRAME_HEADER`. -/
def frameHeader : Nat := 13

variable [Crypto]

/-- The four bytes of the payload's hash that a frame carries. -/
def frameCheck (payload : Bytes) : Bytes := (blake3Tagged .netcheck payload).bytes.take 4

def frameMessage (p : ChainParams) (cmd : Cmd) (payload : Bytes) : Bytes :=
  p.magic.toList ++ Writer.u8 cmd.code ++ Writer.u32le (UInt32.ofNat payload.length) ++
    frameCheck payload ++ payload

namespace FrameReader

/-- The `n` bytes of the buffer from place `i` on. -/
def field (buf : Bytes) (i n : Nat) : Bytes := (buf.drop i).take n

/-- `next`: 0 is `more`, -1 is `fail` with the text of `err`, 1 is `item` with
the command, the payload and the buffer that is left. -/
def next (p : ChainParams) (buf : Bytes) : Poll UInt8 (Cmd × Bytes) String :=
  if buf.length < frameHeader then .more
  else if field buf 0 4 ≠ p.magic.toList then .fail "bad magic (wrong network?)"
  else
    let len := ofLeBytes (field buf 5 4)
    if len > maxMessage then .fail "message too large"
    else if buf.length < frameHeader + len then .more
    else
      let payload := field buf frameHeader len
      if frameCheck payload ≠ field buf 9 4 then .fail "bad checksum"
      else .item (⟨buf.getD 4 0⟩, payload) (buf.drop (frameHeader + len))

end FrameReader

end QuantCore
