import QuantCore.Consensus.Pow
import QuantCore.Lib.Numeral
import QuantCore.Primitives.Block

/-!
# Grinding a header

`mine_header` serializes the header once and, round after round, writes the next
nonce over the last eight bytes and compares the hash with the target byte by
byte. The stop flag is another thread's: `stop i` is what the load in round `i`
reads, and a null pointer is `none`.
-/

namespace QuantCore

variable [Crypto]

/-- `memcmp` of the first `n` bytes. -/
def memcmp (a b : Bytes) (n : Nat) : Ordering := Numeral.firstDiff (a.take n) (b.take n)

def hashLeTarget (h t : Bytes) : Bool := memcmp h t 32 != .gt

/-- The nonce over the last eight bytes of the buffer. -/
def patchNonce (buf : Bytes) (n : UInt64) : Bytes :=
  (List.range 8).foldl
    (fun buf k => buf.set (BlockHeader.size - 8 + k) (n >>> UInt64.ofNat (8 * k)).toUInt8) buf

/-- The loop of `mine_header`, from round `i` on: the nonce found. -/
def mineLoop (target : Hash256) (nonce : UInt64) (stop : Option (UInt64 → Bool)) :
    Nat → UInt64 → Bytes → Option UInt64
  | 0, _, _ => none
  | rounds + 1, i, buf =>
      if stop.any fun flag => i &&& 0xffff == 0 && flag i then none
      else
        let n := nonce + i
        let buf := patchNonce buf n
        if hashLeTarget (blake3 buf).bytes target.bytes then some n
        else mineLoop target nonce stop rounds (i + 1) buf

/-- `mine_header`: what it returns, and the header it leaves. -/
def mineHeader (h : BlockHeader) (maxTries : UInt64) (stop : Option (UInt64 → Bool)) :
    Bool × BlockHeader :=
  match mineLoop (U256.ofCompact h.bits).toHash h.nonce stop maxTries.toNat 0 h.write with
  | some n => (true, { h with nonce := n })
  | none => (false, h)

end QuantCore
