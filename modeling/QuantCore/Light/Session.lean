import QuantCore.Lib.Loop
import QuantCore.Light.Wallet
import QuantCore.Net.Frame
import QuantCore.Net.Messages

/-!
# The light client's sessions

`connect` shakes hands with candidates until enough peers are connected;
`broadcast` sends a transaction to every peer and listens for a rejection. Both
decode what a peer sends, as it sends it: an error of a reader is an exception,
which nothing catches here.

A connection is what it takes and the messages that come in time; frames that are
not well formed end it. The search for candidates and the file of working peers
are left out.
-/

namespace QuantCore

open Loop

/-! ## Connections -/

/-- A connection: the messages it takes, and those that come in time after one
was sent. -/
structure Link where
  takes : Cmd → Bytes → Bool
  messages : Cmd → Bytes → List (Cmd × Bytes)

/-- An address to try, and the connection it gives, if it does. -/
structure Candidate where
  addr : NetAddr
  link : Option Link

/-- The variables of `handshake`; `ver` is the peer's. -/
structure Handshake where
  gotVer : Bool := false
  gotAck : Bool := false
  ver : VersionMsg := {}
deriving DecidableEq, Repr

namespace Handshake

/-- The end of a round: the loop stops when both messages have come. -/
def settle (s : Handshake) : Round Handshake (Option VersionMsg) String :=
  if s.gotVer && s.gotAck then .stop (some s.ver) else .next s

/-- A round for a message. -/
def step (genesis : Hash256) (s : Handshake) (m : Cmd × Bytes) :
    Round Handshake (Option VersionMsg) String :=
  if m.1 = Cmd.version then
    match VersionMsg.decode m.2 with
    | .error e => .throw e
    | .ok (v, _) =>
        if v.genesis ≠ genesis ∨ v.services &&& serviceLightServe = 0 then .stop none
        else settle { s with gotVer := true, ver := v }
  else if m.1 = Cmd.verack then settle { s with gotAck := true }
  else settle s

end Handshake

namespace LightClient

/-- The version message a client sends. -/
def hello (p : ChainParams) (c : LightClient) (nonce : UInt64) (addr : NetAddr) : VersionMsg where
  services := 0
  nonce
  height := c.height
  listenPort := 0
  agent := textBytes "quant-termux:0.2.0"
  genesis := p.genesisHash
  yourAddr := addr

/-- `handshake`: the peer's version if both messages came in time, and none
otherwise. -/
def handshake (p : ChainParams) (c : LightClient) (nonce : UInt64) (addr : NetAddr)
    (link : Link) : Except String (Option VersionMsg) :=
  let sent := (c.hello p nonce addr).encode
  if link.takes Cmd.version sent then
    run (Handshake.step p.genesisHash) (fun _ => none) {} (link.messages Cmd.version sent)
  else .ok none

/-- A round of `connect`, for a candidate. -/
def connectStep (p : ChainParams) (c : LightClient) (nonce : UInt64) (want : Int)
    (peers : List (NetAddr × VersionMsg)) (a : Candidate) :
    Round (List (NetAddr × VersionMsg)) (List (NetAddr × VersionMsg)) String :=
  if (peers.length : Int) ≥ want then .stop peers
  else
    match a.link with
    | none => .next peers
    | some link =>
        match c.handshake p nonce a.addr link with
        | .error e => .throw e
        | .ok none => .next peers
        | .ok (some ver) =>
            if ver.nonce = nonce then .next peers else .next (peers ++ [(a.addr, ver)])

/-- `connect`, from the candidates on: the peers there are after it. -/
def connect (p : ChainParams) (c : LightClient) (nonce : UInt64) (want : Int)
    (candidates : List Candidate) (peers : List (NetAddr × VersionMsg)) :
    Except String (List (NetAddr × VersionMsg)) :=
  run (c.connectStep p nonce want) id peers candidates

/-! ## Broadcasting -/

/-- A round of listening to a peer after the transaction `id` was sent. The text
is read only if the caller wants the error. -/
def listenStep (id : Hash256) (wantsErr : Bool) (_ : Unit) (m : Cmd × Bytes) :
    Round Unit (Option Bytes) String :=
  if m.1 = Cmd.reject then
    match (do let _ ← ByteReader.u8; ByteReader.hash : ByteReader Hash256) m.2 with
    | .error e => .throw e
    | .ok (h, bs) =>
        if h = id then
          if wantsErr then
            match ByteReader.str 500 bs with
            | .error e => .throw e
            | .ok (text, _) => .stop (some text)
          else .stop (some [])
        else .next ()
  else .next ()

variable [Crypto]

/-- A round of the loop over the peers. -/
def broadcastStep (tx : Transaction) (wantsErr : Bool) (_ : Unit) (link : Link) :
    Round Unit (Option Bytes) String :=
  match run (listenStep tx.txid wantsErr) (fun _ => none) ()
      (link.messages Cmd.txMsg tx.writeFull) with
  | .error e => .throw e
  | .ok (some text) => .stop (some text)
  | .ok none => .next ()

/-- `broadcast`: `true`, or `false` with its error. -/
def broadcast (tx : Transaction) (wantsErr : Bool) (links : List Link) :
    Except String (Except Bytes Unit) :=
  if links.isEmpty then .ok (.error (textBytes "not connected"))
  else if links.all fun l => !l.takes Cmd.txMsg tx.writeFull then
    .ok (.error (textBytes "could not send to any peer"))
  else
    match run (broadcastStep tx wantsErr) (fun _ => none) () links with
    | .error e => .error e
    | .ok (some text) => .ok (.error text)
    | .ok none => .ok (.ok ())

end LightClient

end QuantCore
