import Mathlib.Algebra.GroupWithZero.Nat
import Mathlib.Data.Nat.Log
import QuantCore.Primitives.Transaction

/-!
# What the parts of a transaction take

A varint takes a byte for each seven bits; from that the bytes of an outpoint,
of an output and of a counted section are known before they are written, and
bounded.
-/

namespace QuantCore

open Codec

/-- The bytes of a varint: seven bits each. -/
def varintSize (v : UInt64) : Nat := Nat.log 128 v.toNat + 1

def opSize (o : OutPoint) : Nat := 32 + varintSize o.n.toUInt64

/-- An amount, an asset and an address. -/
def outSize (o : TxOut) : Nat := varintSize o.value + (if o.asset.isZero then 1 else 33) + 32

theorem varintLoop_length {k : Nat} {v : UInt64} (h : v.toNat < 128 ^ (k + 1)) :
    (Writer.varintLoop k v).length = varintSize v := by
  induction k generalizing v with
  | zero =>
      rw [varintSize, Nat.log_of_lt (by omega)]
      rfl
  | succ k ih =>
      rw [Writer.varintLoop]
      split
      · next hge =>
          have hge : 128 ≤ v.toNat := hge
          have hshift : (v >>> 7).toNat = v.toNat / 128 := by
            rw [UInt64.toNat_shiftRight]
            exact Nat.shiftRight_eq_div_pow v.toNat 7
          have hlt : (v >>> 7).toNat < 128 ^ (k + 1) := by
            rw [hshift]
            rw [Nat.pow_succ] at h
            exact Nat.div_lt_of_lt_mul (by omega)
          rw [List.length_cons, ih hlt, varintSize, varintSize, hshift,
            Nat.log_of_one_lt_of_le (by decide) hge]
      · next hlt =>
          have hlt : v.toNat < 128 := Nat.lt_of_not_le hlt
          rw [varintSize, Nat.log_of_lt hlt]
          rfl

theorem varint_length (v : UInt64) : (Writer.varint v).length = varintSize v :=
  varintLoop_length (lt_trans v.toNat_lt (by decide))

theorem size_length (n : Nat) : (Writer.size n).length = varintSize (UInt64.ofNat n) :=
  varint_length _

theorem writeOutPoint_length (o : OutPoint) : (writeOutPoint o).length = opSize o := by
  rw [writeOutPoint, List.length_append, varint_length, Writer.hash, Hash256.bytes_length, opSize]

theorem writeTxOut_length (o : TxOut) : (writeTxOut o).length = outSize o := by
  have haddr : (Writer.hash o.addr).length = 32 := Hash256.bytes_length o.addr
  have hasset : (Writer.u8 1 ++ Writer.hash o.asset).length = 33 := by
    rw [List.length_append, Writer.hash, Hash256.bytes_length]
    rfl
  rw [writeTxOut, List.length_append, List.length_append, varint_length, haddr, outSize,
    TxOut.isQnt]
  split
  · rfl
  · rw [hasset]

theorem varintSize_le {k : Nat} {v : UInt64} (h : v.toNat < 128 ^ (k + 1)) :
    varintSize v ≤ k + 1 := by
  rw [varintSize]
  exact Nat.succ_le_succ (Nat.lt_succ_iff.mp (Nat.log_lt_of_lt_pow' (by omega) h))

theorem varintSize_le_ten (v : UInt64) : varintSize v ≤ 10 :=
  varintSize_le (lt_trans v.toNat_lt (by decide))

theorem varintSize_le_five (v : UInt32) : varintSize v.toUInt64 ≤ 5 := by
  refine varintSize_le ?_
  rw [UInt32.toNat_toUInt64]
  exact lt_trans v.toNat_lt (by decide)

theorem opSize_le (o : OutPoint) : opSize o ≤ 37 := by
  have hn := varintSize_le_five o.n
  rw [opSize]
  omega

theorem outSize_le (o : TxOut) : outSize o ≤ 75 := by
  have hv := varintSize_le_ten o.value
  rw [outSize]
  split <;> omega

/-- A counted section: its count, and what its items take. -/
theorem section_length {α : Type} {write : α → Bytes} {size : α → Nat}
    (h : ∀ a, (write a).length = size a) (l : List α) :
    (Writer.size l.length ++ l.flatMap write).length =
      varintSize (UInt64.ofNat l.length) + (l.map size).sum := by
  rw [List.length_append, size_length, List.length_flatMap]
  exact congrArg (_ + List.sum ·) (List.map_congr_left fun a _ => h a)

theorem hashes_length (l : List Hash256) : (l.flatMap Writer.hash).length = 32 * l.length := by
  induction l with
  | nil => rfl
  | cons h l ih =>
      rw [List.flatMap_cons, List.length_append, ih, Writer.hash, Hash256.bytes_length,
        List.length_cons]
      omega

end QuantCore
