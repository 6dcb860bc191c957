import QuantCore.Chain.Accept
import QuantCore.Net.Protocol

/-!
# Downloading a snapshot

A fresh node takes the newest committed snapshot from one peer, a chunk at a
time. `try_fast_sync` chooses the peer and says whether a download is in
progress; `handle` takes the chunks as they come, from whatever peer, and asks
for the next. The peer at the other end reads the file once and keeps it as long
as the same one is asked for.

What `load_snapshot_bytes` makes of the bytes, and what becomes of a peer that
misbehaves, has no bearing on the download.
-/

namespace QuantCore

/-- `SNAPSHOT_CHUNK`. -/
def snapshotChunk : Nat := 1024 * 1024

/-- `GetSnapshot`: the block, and where to go on. -/
def writeGetSnapshot (bh : Hash256) (off : Nat) : Bytes := Writer.hash bh ++ Writer.size off

def readGetSnapshot : ByteReader (Hash256 × UInt64) := do
  let bh ← ByteReader.hash
  let off ← ByteReader.varint
  pure (bh, off)

/-- `Snapshot`: the size of the file, and a chunk of it. -/
structure SnapshotPart where
  block : Hash256
  total : UInt64
  off : UInt64
  chunk : Bytes

namespace SnapshotPart

def write (x : SnapshotPart) : Bytes :=
  Writer.hash x.block ++ Writer.varint x.total ++ Writer.varint x.off ++ Writer.bytes x.chunk

def read : ByteReader SnapshotPart := do
  let block ← ByteReader.hash
  let total ← ByteReader.varint
  let off ← ByteReader.varint
  let chunk ← ByteReader.bytes (UInt64.ofNat snapshotChunk)
  pure { block, total, off, chunk }

end SnapshotPart

/-! ## The peer that serves -/

/-- `serve_snap_block_` and `serve_snap_`. -/
structure SnapshotServer where
  block : Hash256 := 0
  file : Bytes := []

namespace SnapshotServer

/-- The file that is kept, or else the one that is asked for; `file` is
`read_snapshot_file`. -/
def fetch (file : Hash256 → Option Bytes) (v : SnapshotServer) (bh : Hash256) : SnapshotServer :=
  if v.block ≠ bh then
    match file bh with
    | some x => ⟨bh, x⟩
    | none => {}
  else v

/-- The answer to a request, once the file is there. -/
def part (v : SnapshotServer) (bh : Hash256) (off : UInt64) : SnapshotPart :=
  if v.block ≠ bh ∨ off.toNat > v.file.length then ⟨bh, 0, 0, []⟩
  else ⟨bh, UInt64.ofNat v.file.length, off, (v.file.drop off.toNat).take snapshotChunk⟩

/-- The handler of `GetSnapshot`. -/
def serve (file : Hash256 → Option Bytes) (v : SnapshotServer) (req : Bytes) :
    Except String (SnapshotServer × Bytes) :=
  (readGetSnapshot req).map fun r =>
    let v := v.fetch file r.1.1
    (v, (v.part r.1.1 r.1.2).write)

end SnapshotServer

/-! ## The node that downloads -/

/-- The members whose names begin with `snap_`. There is no peer where
`snap_peer_` is 0: the ids of peers begin with 1. -/
structure FastSync where
  peer : Option UInt64 := none
  block : Hash256 := 0
  buf : Bytes := []
  total : UInt64 := 0
  since : Int := 0
  badPeers : List UInt64 := []

/-- What a chunk leads to: nothing, a request for the next one, or the end. -/
inductive SyncAction
  | nothing
  | request (payload : Bytes)
  | load (snap : Bytes)

namespace FastSync

/-- The end of a download. -/
def reset (f : FastSync) : FastSync := { f with peer := none, buf := [], total := 0 }

/-- The peer is not asked again. -/
def refuse (f : FastSync) (id : UInt64) : FastSync :=
  { f.reset with badPeers := id :: f.badPeers }

/-- A chunk at the end of what there is. -/
def append (f : FastSync) (x : SnapshotPart) (now : Int) : FastSync :=
  { f with total := x.total, buf := f.buf ++ x.chunk, since := now }

def takePart (f : FastSync) (id : UInt64) (x : SnapshotPart) (now : Int) : FastSync × SyncAction :=
  if f.peer ≠ some id ∨ x.block ≠ f.block then (f, .nothing)
  else if x.total = 0 ∨ x.total.toNat > 4 * 2 ^ 30 ∨ x.off.toNat ≠ f.buf.length ∨
      (f.total ≠ 0 ∧ x.total ≠ f.total) then
    (f.refuse id, .nothing)
  else
    let g := f.append x now
    if g.buf.length < g.total.toNat then (g, .request (writeGetSnapshot x.block g.buf.length))
    else (g.reset, .load g.buf)

/-- The handler of `Snapshot`. -/
def receive (f : FastSync) (id : UInt64) (now : Int) (payload : Bytes) :
    Except String (FastSync × SyncAction) :=
  (SnapshotPart.read payload).map fun r => f.takePart id r.1 now

end FastSync

/-! ## Choosing a peer -/

/-- What `try_fast_sync` looks at of a peer. -/
structure SyncPeer where
  id : UInt64
  active : Bool
  services : UInt64
  bestHeight : Int

/-- `SERVICE_SNAPSHOT`. -/
def serviceSnapshot : UInt64 := 8

/-- The greatest height an active peer claims. -/
def maxPeerHeight (peers : List SyncPeer) : Int :=
  peers.foldl (fun m p => if p.active then max m p.bestHeight else m) 0

variable [Crypto]

/-- The newest snapshot that the best chain commits to. -/
def snapshotTarget (cfg : Config) (s : Chainstate) (best : Hash256) : Option Hash256 :=
  let h : Int := (((s.entry best).height : Int) - cfg.params.snapshotDelay).tdiv
    cfg.params.snapshotInterval * cfg.params.snapshotInterval
  if h ≤ 0 then none
  else
    match s.ancestor best h.toNat with
    | none => none
    | some b => if (s.committedHashFor cfg b).isNone then none else some b

namespace FastSync

omit [Crypto] in
def usable (f : FastSync) (p : SyncPeer) : Bool :=
  p.active && p.services &&& serviceSnapshot != 0 && !f.badPeers.contains p.id

omit [Crypto] in
/-- Ask the first peer that will do. -/
def choose (f : FastSync) (target : Hash256) (peers : List SyncPeer) (now : Int) :
    FastSync × Bool × Option (UInt64 × Bytes) :=
  match peers.find? f.usable with
  | some p =>
      ({ f with peer := some p.id, block := target, since := now }, true,
        some (p.id, writeGetSnapshot target 0))
  | none => (f, false, none)

omit [Crypto] in
/-- A download that has stalled is given up. -/
def giveUp (f : FastSync) : FastSync :=
  match f.peer with
  | some id => f.refuse id
  | none => f

/-- `try_fast_sync`: whether a download is in progress, and a first request. -/
def tryFastSync (cfg : Config) (s : Chainstate) (peers : List SyncPeer) (now : Int)
    (f : FastSync) : FastSync × Bool × Option (UInt64 × Bytes) :=
  if s.height > 0 then (f, false, none)
  else
    match s.bestHeader with
    | none => (f, f.peer.isSome, none)
    | some best =>
        if ((s.entry best).height : Int) + 10 < maxPeerHeight peers then
          (f, f.peer.isSome, none)
        else
          match snapshotTarget cfg s best with
          | none => (f, false, none)
          | some target =>
              if f.peer.isSome ∧ now - f.since < 60000 then (f, true, none)
              else f.giveUp.choose target peers now

end FastSync

end QuantCore
