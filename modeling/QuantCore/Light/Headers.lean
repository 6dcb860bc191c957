import QuantCore.Chain.Accept
import QuantCore.Net.Protocol

/-!
# The light client's header chain

A phone wallet keeps headers only, in two vectors, genesis first: the headers
and their hashes. A header is appended when its predecessor's rules allow it.
`sync_headers` asks one peer for headers until a batch is not full; a batch that
attaches below the tip replaces what is above its fork if it claims more work.

A peer is whatever answers: the bytes a request gets back are a function of the
request and of the step counter, or there is no answer in time. The file the
headers are kept in between runs is loaded without a check of the rules.
-/

namespace QuantCore

open Codec

/-- The requests of a light client that are answered. -/
inductive LightCmd
  | getHeaders
  | getUtxos
deriving DecidableEq, Repr

structure LightPeer where
  /-- `addr.str()`. -/
  addr : String
  /-- `ver.height`, as the peer claims it. -/
  height : Int
  exchange : Nat → LightCmd → Bytes → Option Bytes

/-- What the client asks of the world. -/
structure LightEnv where
  clock : Nat → Int
  saveFails : Nat → Bool

structure LightClient where
  headers : List BlockHeader
  hashes : List Hash256
  /-- `headers.dat`. -/
  file : Option Bytes := none
  tick : Nat := 0

/-- How a call of `sync_headers` ends: `true`, `false` with its error, or with
the exception of a reply that does not parse. -/
inductive SyncExit
  | done
  | failed (err : String)
  | thrown (err : String)
deriving DecidableEq, Repr

namespace LightClient

def height (c : LightClient) : Nat := c.headers.length - 1

/-- `hashes_.back()`. -/
def tipHash (c : LightClient) : Hash256 := c.hashes.getLastD 0

def ticked (c : LightClient) : LightClient := { c with tick := c.tick + 1 }

/-! ## The rules -/

/-- What the retarget reads of the header `i` below the tip. -/
def infoBack (hs : List BlockHeader) (i : Nat) : HeaderInfo :=
  let x := hs.getD (hs.length - 1 - i) default
  ⟨x.time, x.bits⟩

/-- The median of the last times. -/
def medianTime (hs : List BlockHeader) : Int :=
  let t := ((hs.reverse.take medianTimeSpan).map fun x => int64 x.time).insertionSort (· ≤ ·)
  t.getD (t.length / 2) 0

variable [Crypto]

/-- What `append_header` asks of a header on top of `hs`, whose last hash is
`tip`. -/
def checkHeader (p : ChainParams) (now : Int) (hs : List BlockHeader) (tip : Hash256)
    (h : BlockHeader) : Except String Unit :=
  if h.prev ≠ tip then .error "does not connect"
  else if !checkPow h.hash h.bits p then .error "bad proof of work"
  else if h.bits ≠ nextBits (hs.length - 1) (infoBack hs) p then .error "wrong difficulty"
  else if int64 h.time ≤ medianTime hs then .error "timestamp too old"
  else if int64 h.time > now + maxFutureDrift then .error "timestamp in the future"
  else .ok ()

def pushHeader (c : LightClient) (h : BlockHeader) : LightClient :=
  { c with headers := c.headers ++ [h], hashes := c.hashes ++ [h.hash] }

def appendHeader (env : LightEnv) (p : ChainParams) (c : LightClient) (h : BlockHeader) :
    LightClient × Except String Unit :=
  match checkHeader p (env.clock c.tick) c.headers c.tipHash h with
  | .error why => (c.ticked, .error why)
  | .ok () => (c.ticked.pushHeader h, .ok ())

/-! ## The file -/

/-- The records after the first: as many as are linked. -/
def loadRest : List BlockHeader → LightClient → LightClient
  | [], c => c
  | h :: hs, c => if h.prev ≠ c.tipHash then c else loadRest hs (c.pushHeader h)

def loadHeaders (p : ChainParams) (file : Option Bytes) : LightClient :=
  let c : LightClient := { headers := [p.genesis.header], hashes := [p.genesisHash], file }
  let records := Chainstate.records BlockHeader.size (file.getD [])
  match records.filterMap fun r => (BlockHeader.read r).toOption.map Prod.fst with
  | [] => c
  | h :: hs => if h.hash ≠ p.genesisHash then c else loadRest hs c

omit [Crypto] in
def saveHeaders (env : LightEnv) (c : LightClient) : LightClient :=
  if env.saveFails c.tick then c.ticked
  else { c.ticked with file := some (c.headers.flatMap BlockHeader.write) }

/-! ## The request -/

omit [Crypto] in
/-- The loop of `locator`, `size` hashes being in it already. -/
def locatorLoop (hashes : List Hash256) : Nat → Nat → Nat → Nat → List Hash256
  | 0, _, _, _ => []
  | k + 1, h, step, size =>
      let step := if size + 1 > 10 then step * 2 else step
      hashes.getD h 0 ::
        if h < step then [] else locatorLoop hashes k (h - step) step (size + 1)

omit [Crypto] in
def locator (p : ChainParams) (c : LightClient) : List Hash256 :=
  let v := locatorLoop c.hashes c.headers.length c.height 1 0
  if v.getLastD 0 ≠ p.genesisHash then v ++ [p.genesisHash] else v

omit [Crypto] in
/-- The payload of `GetHeaders`: the locator, and no hash to stop at. -/
def headersRequest (p : ChainParams) (c : LightClient) : Bytes :=
  writeGetHeaders (c.locator p) 0

/-! ## Synchronising -/

omit [Crypto] in
def headerWork (h : BlockHeader) : U256 := U256.workFromTarget (U256.ofCompact h.bits)

omit [Crypto] in
/-- The loops `ours += header_work(h)` and `theirs += header_work(h)`. -/
def workOf (hs : List BlockHeader) : U256 :=
  hs.foldl (fun sum h => sum.add (headerWork h)) {}

omit [Crypto] in
/-- The first index `prev` is found at. -/
def forkIndex (c : LightClient) (prev : Hash256) : Option Nat := c.hashes.findIdx? (· == prev)

omit [Crypto] in
/-- Fork handling: the chain the batch is appended to, or how the call ends. -/
def attach (c : LightClient) (prev : Hash256) (batch : List BlockHeader) :
    Except SyncExit LightClient :=
  if prev = c.tipHash then .ok c
  else
    match c.forkIndex prev with
    | none => .error (.failed "peer sent unconnected headers")
    | some fork =>
        if (workOf batch).le (workOf (c.headers.drop (fork + 1))) then .error .done
        else if c.headers.length - fork - 1 > maxReorgDepth then
          .error (.failed "refusing deep reorg")
        else
          .ok { c with
            headers := c.headers.take (fork + 1), hashes := c.hashes.take (fork + 1) }

/-- Append a batch, up to the first header that is refused. -/
def appendBatch (env : LightEnv) (p : ChainParams) (addr : String) :
    List BlockHeader → LightClient → LightClient × Option SyncExit
  | [], c => (c, none)
  | h :: hs, c =>
      match c.appendHeader env p h with
      | (c', .error why) =>
          (c'.saveHeaders env, some (.failed ("invalid header from " ++ addr ++ ": " ++ why)))
      | (c', .ok ()) => appendBatch env p addr hs c'

omit [Crypto] in
/-- The batch in a reply. -/
def readBatch (reply : Bytes) : Except String (List BlockHeader) :=
  (readHeaders reply).map Prod.fst

omit [Crypto] in
/-- After a batch of `n` headers was appended: a batch that is not full is the
last one. -/
def endRound (n : Nat) : LightClient × Option SyncExit → LightClient × Option SyncExit
  | (c, some e) => (c, some e)
  | (c, none) => if n < maxHeadersPerMsg then (c, some .done) else (c, none)

/-- A round of `sync_headers` after the reply came in. -/
def syncRound (env : LightEnv) (p : ChainParams) (addr : String) (c : LightClient)
    (reply : Bytes) : LightClient × Option SyncExit :=
  match readBatch reply with
  | .error e => (c, some (.thrown e))
  | .ok [] => (c, some .done)
  | .ok (h :: hs) =>
      match c.attach h.prev (h :: hs) with
      | .error e => (c, some e)
      | .ok c' => endRound (h :: hs).length (appendBatch env p addr (h :: hs) c')

def syncLoop (env : LightEnv) (p : ChainParams) (peer : LightPeer) :
    Nat → LightClient → LightClient × SyncExit
  | 0, c => (c, .done)
  | k + 1, c =>
      match peer.exchange c.tick .getHeaders (c.headersRequest p) with
      | none => (c, .failed "peer stopped answering")
      | some reply =>
          match c.syncRound env p peer.addr reply with
          | (c', some e) => (c', e)
          | (c', none) => syncLoop env p peer k c'

omit [Crypto] in
/-- The first peer that claims the most blocks. -/
def bestPeer : List LightPeer → Option LightPeer
  | [] => none
  | p :: ps => some (ps.foldl (fun best q => if best.height < q.height then q else best) p)

/-- The bound of the loop of `sync_headers`. -/
def syncRounds : Nat := 100000

def syncHeaders (env : LightEnv) (p : ChainParams) (peers : List LightPeer)
    (c : LightClient) : LightClient × SyncExit :=
  match bestPeer peers with
  | none => (c, .failed "not connected")
  | some peer =>
      match syncLoop env p peer syncRounds c with
      | (c', .done) => (c'.saveHeaders env, .done)
      | (c', .failed e) => (c', .failed e)
      | (c', .thrown e) => (c', .thrown e)

end LightClient

end QuantCore
