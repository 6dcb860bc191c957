import QuantCore.Chain.Accept
import QuantCore.Net.Protocol

/-!
# Asking for headers and answering

A node names blocks of its best header's branch, densely near the top and ever
further apart below; the peer answers with what its active chain has above the
first of them it knows to be on it, as many headers as one message takes.
-/

namespace QuantCore

namespace Chainstate

/-- The loop of `locator`, `size` hashes being in it already. Every round but
the last lowers the height. -/
def locatorLoop (s : Chainstate) : Nat → Hash256 → Nat → Nat → List Hash256
  | 0, _, _, _ => []
  | k + 1, b, step, size =>
      (s.entry b).hash ::
        if (s.entry b).height = 0 then []
        else
          match s.ancestor b ((s.entry b).height - step) with
          | none => []
          | some a => locatorLoop s k a (if size + 1 > 10 then step * 2 else step) (size + 1)

/-- `locator`, from the tip where no block is given. -/
def locator (s : Chainstate) (start : Option Hash256) : List Hash256 :=
  let b := start.getD s.tip
  s.locatorLoop ((s.entry b).height + 1) b 1 0

/-- The payload of `send_getheaders(p, true)`. -/
def getHeadersRequest (s : Chainstate) : Bytes := writeGetHeaders (s.locator s.bestHeader) 0

def findForkFromLocator (s : Chainstate) (loc : List Hash256) : Option Hash256 :=
  match loc.find? fun h => h ∈ s.index && s.inActiveChain h with
  | some h => some h
  | none => s.atHeight 0

/-- The headers of the active chain from a height up, with room for `k` more. -/
def headersFrom (s : Chainstate) (stop : Hash256) : Nat → Nat → List BlockHeader
  | 0, _ => []
  | k + 1, h =>
      match s.atHeight h with
      | none => []
      | some b =>
          (s.entry b).header :: if b = stop then [] else headersFrom s stop k (h + 1)

def headersReply (s : Chainstate) (loc : List Hash256) (stop : Hash256) : List BlockHeader :=
  match s.findForkFromLocator loc with
  | some f => s.headersFrom stop maxHeadersPerMsg ((s.entry f).height + 1)
  | none => s.headersFrom stop maxHeadersPerMsg 0

/-- The handler of `GetHeaders`: the payload it sends back. -/
def serveGetHeaders (s : Chainstate) : ByteReader Bytes := do
  let (loc, stop) ← readGetHeaders
  pure (writeHeaders (s.headersReply loc stop))

end Chainstate

end QuantCore
