import QuantCore.Lib.Search
import QuantCore.Util.Bech32
import QuantCore.Util.Numbers

/-!
# The HTTP server

`serve` receives one request, checks it, parses its body as JSON and hands it to
`Node::rpc`. It runs in a thread of its own: an exception that leaves it ends
the whole process.

The JSON library and `Node::rpc` are parameters. A connection is what the rounds
of the receive loop see of it. Sending is left out.
-/

namespace QuantCore

open Search

/-! ## Receiving -/

/-- What polling and receiving gave in a round: nothing yet, the end of the
connection, or bytes. -/
inductive Polled where
  | nothing
  | closed
  | bytes (chunk : Bytes)
deriving DecidableEq, Repr

/-- A round of the loop; `late` says that the time is up at its end. -/
structure RecvRound where
  polled : Polled
  late : Bool := false
deriving DecidableEq, Repr

def maxHttp : Nat := 16 * 1024 * 1024

def blankLine : Bytes := [13, 10, 13, 10]

/-- The length that the headers give, `none` where `stoul` throws. -/
def contentLength (headers : Bytes) : Option UInt64 :=
  let lower := headers.map toLower
  match find (textBytes "content-length:") lower with
  | none => some 0
  | some cl => stoul (lower.drop (cl + 15))

/-- The loop's variables: what has come, and the headers with the length once
they are complete. -/
structure HttpState where
  buf : Bytes := []
  head : Option (Bytes × UInt64) := none
deriving DecidableEq, Repr

/-- How receiving ends: without a request, with an exception, or with one. -/
inductive Received where
  | failed
  | threw
  | request (headers body : Bytes)
deriving DecidableEq, Repr

namespace HttpState

/-- The buffer after polling, `none` where the loop gives up. -/
def polled (s : HttpState) : Polled → Option HttpState
  | .nothing => some s
  | .closed => none
  | .bytes c =>
      if (s.buf ++ c).length > maxHttp then none else some { s with buf := s.buf ++ c }

/-- Looks for the end of the headers, once; `none` where `stoul` throws. -/
def withHead (s : HttpState) : Option HttpState :=
  if s.head.isSome then some s
  else
    match find blankLine s.buf with
    | none => some s
    | some e =>
        match contentLength (s.buf.take e) with
        | none => none
        | some need => some { s with head := some (s.buf.take e, need) }

/-- The request, if all of it has come. The sum is one of 64-bit words. -/
def complete (s : HttpState) : Option (Bytes × Bytes) :=
  match s.head with
  | none => none
  | some (headers, need) =>
      if UInt64.ofNat s.buf.length ≥ UInt64.ofNat headers.length + 4 + need then
        some (headers, (s.buf.drop (headers.length + 4)).take need.toNat)
      else none

/-- `recv_http`; `none` while it still waits. -/
def recv (s : HttpState) : List RecvRound → Option Received
  | [] => none
  | r :: rounds =>
      match s.polled r.polled with
      | none => some .failed
      | some s =>
          match s.withHead with
          | none => some .threw
          | some s =>
              match s.complete with
              | some (headers, body) => some (.request headers body)
              | none => if r.late then some .failed else recv s rounds

end HttpState

def recvHttp (rounds : List RecvRound) : Option Received := HttpState.recv {} rounds

/-! ## JSON -/

/-- The JSON library, as far as the server uses it. An error is the text of the
exception. -/
class Json (J : Type) where
  parse : Bytes → Option J
  null : J
  array : J
  string : Bytes → J
  object : List (String × J) → J
  /-- The members of an object; `value` throws on anything else. -/
  members : J → Except Bytes (String → Option J)
  /-- `get<std::string>`. -/
  text : J → Except Bytes Bytes
  /-- `none` where it throws, on a string that is not UTF-8. -/
  dump : J → Option Bytes

variable {J : Type} [Json J]

/-- `value`, with a default of any kind. -/
def Json.value (j : J) (key : String) (default : J) : Except Bytes J := do
  let m ← members j
  return (m key).getD default

/-- `value`, with a string as its default. -/
def Json.textValue (j : J) (key : String) (default : Bytes) : Except Bytes Bytes := do
  let m ← members j
  match m key with
  | none => return default
  | some v => text v

/-! ## Serving -/

structure HttpRpcServer (J : Type) where
  isPublic : Bool
  token : Bytes
  /-- `Node::rpc`, on a method and its parameters. -/
  rpc : Bytes → J → Except Bytes J

namespace HttpRpcServer

def publicMethods : List String :=
  ["getblockchaininfo", "getblockcount", "getbestblockhash", "getblockhash", "getblock",
    "gettransaction", "getaddressinfo", "getaddresscoins", "getmempoolinfo", "getrawmempool",
    "listtokens", "gettoken", "getpool", "quote", "sendrawtransaction", "decoderawtransaction",
    "getemission", "getpoolhistory", "listmarkets", "getpooltrades", "getmessages", "listgifts",
    "faucet", "estimatefee", "validateaddress", "getsnapshotinfo", "help"]

def publicMethod (m : Bytes) : Bool := publicMethods.any fun s => m == textBytes s

/-- How a connection ends: closed without an answer, with one, or by an
exception that leaves the thread. -/
inductive Served where
  | silent
  | sent (text : Bytes)
  | escaped
deriving DecidableEq, Repr

def reply (s : HttpRpcServer J) (code : Nat) (b : Bytes) : Served :=
  .sent <|
    textBytes ("HTTP/1.1 " ++ toString code ++ (if code = 200 then " OK" else " Error") ++
      "\r\nContent-Type: application/json\r\nConnection: close\r\n" ++
      (if s.isPublic then
        "Access-Control-Allow-Origin: *\r\nAccess-Control-Allow-Methods: POST, OPTIONS\r\n" ++
          "Access-Control-Allow-Headers: Content-Type\r\n" else "") ++
      "Content-Length: " ++ toString b.length ++ "\r\n\r\n") ++ b

/-- The answer given before the body is looked at, if one is. -/
def refusal (s : HttpRpcServer J) (headers : Bytes) : Option (Nat × Bytes) :=
  if s.isPublic ∧ textBytes "OPTIONS" <+: headers then some (200, textBytes "\x7b\x7d")
  else if !s.isPublic ∧ find (textBytes "Bearer " ++ s.token) headers = none then
    some (401, textBytes "\x7b\"error\":\"unauthorized\"\x7d")
  else none

/-- The method and the parameters with which `Node::rpc` is called. -/
def callOf (s : HttpRpcServer J) (req : J) : Except Bytes (Bytes × J) := do
  let m ← Json.textValue req "method" []
  if s.isPublic && !publicMethod m then
    throw (textBytes "method not available on the public API")
  let method ← Json.textValue req "method" []
  let params ← Json.value req "params" Json.array
  return (method, params)

/-- The answer to a request of some id. -/
def response (s : HttpRpcServer J) (id req : J) : J :=
  match s.callOf req >>= fun call => s.rpc call.1 call.2 with
  | .ok result => Json.object [("id", id), ("result", result), ("error", Json.null)]
  | .error e => Json.object [("id", id), ("result", Json.null), ("error", Json.string e)]

/-- `serve`, once a request has come. -/
def handle (s : HttpRpcServer J) (headers body : Bytes) : Served :=
  match s.refusal headers with
  | some (code, b) => s.reply code b
  | none =>
      match (Json.parse body : Option J) with
      | none => s.reply 400 (textBytes "\x7b\"error\":\"bad json\"\x7d")
      | some req =>
          -- not inside a try block
          match Json.value req "id" Json.null with
          | .error _ => .escaped
          | .ok id =>
              match Json.dump (s.response id req) with
              | none => .escaped
              | some b => s.reply 200 b

def serve (s : HttpRpcServer J) (rounds : List RecvRound) : Option Served :=
  (recvHttp rounds).map fun
    | .failed => .silent
    | .threw => .escaped
    | .request headers body => s.handle headers body

end HttpRpcServer

end QuantCore
