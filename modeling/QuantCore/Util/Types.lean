import QuantCore.Lib.Maps
import Mathlib.Algebra.Group.Nat.Defs
import Mathlib.Data.List.Sort

/-!
# Basic types

Bytes, amounts and 32-byte hashes. A `Hash256` is an array of thirty-two bytes
in the source, displayed and compared as a big-endian number; here it is that
number, and `bytes` gives the array back.

`UMap` is an `unordered_map`: finitely many entries with distinct keys, in
some order of iteration. What the map holds, forgetting the order, is its
`toFinmap`.
-/

namespace QuantCore

abbrev Bytes := List UInt8

/-- A text as the bytes of its ASCII characters. -/
def textBytes (s : String) : Bytes := s.toList.map fun c => UInt8.ofNat c.toNat

/-- What `isspace` takes for white space. -/
def isSpace (c : UInt8) : Bool := c = 0x20 || (9 ≤ c && c ≤ 13)

/-- Base units; 1 QNT is 10^10 of them. -/
abbrev Amount := UInt64

/-- `COIN`, ten decimal places. -/
def coinUnits : Amount := 10000000000

/-- The loop that pops the zeros at the end, on the reversed digits. -/
def popZeros : List Char → List Char
  | c :: d :: rest => if c = '0' then popZeros (d :: rest) else c :: d :: rest
  | digits => digits

/-- `format_amount`: whole coins and up to ten decimals. -/
def formatAmount (a : Amount) : String :=
  let frac := (toString (a % coinUnits).toNat).toList
  let frac := List.replicate (10 - frac.length) '0' ++ frac
  toString (a / coinUnits).toNat ++ "." ++ String.ofList (popZeros frac.reverse).reverse

abbrev Hash256 := BitVec 256

instance : LawfulBEq Hash256 := inferInstance

/-- The value written as `n` bytes, least significant first. -/
def leBytes : Nat → Nat → Bytes
  | 0, _ => []
  | n + 1, v => UInt8.ofNat v :: leBytes n (v / 256)

/-- The number a little-endian byte string denotes. -/
def ofLeBytes : Bytes → Nat
  | [] => 0
  | b :: bs => b.toNat + 256 * ofLeBytes bs

@[simp] theorem leBytes_length (n v : Nat) : (leBytes n v).length = n := by
  induction n generalizing v with
  | zero => rfl
  | succ n ih => rw [leBytes, List.length_cons, ih]

theorem ofLeBytes_leBytes (n v : Nat) :
    ofLeBytes (leBytes n v) = v % 256 ^ n := by
  induction n generalizing v with
  | zero => rw [leBytes, ofLeBytes, Nat.pow_zero, Nat.mod_one]
  | succ n ih =>
      rw [leBytes, ofLeBytes, ih, Nat.pow_succ', Nat.mod_mul]
      simp

namespace Hash256

def isZero (h : Hash256) : Bool := h == 0

/-- The array of bytes, most significant first. -/
def bytes (h : Hash256) : Bytes := (leBytes 32 h.toNat).reverse

def ofBytes (b : Bytes) : Hash256 := BitVec.ofNat 256 (ofLeBytes b.reverse)

/-- `HEXD`. -/
def hexDigit (n : Nat) : Char := "0123456789abcdef".toList.getD n '0'

def hex (h : Hash256) : String :=
  String.ofList (h.bytes.flatMap fun b =>
    [hexDigit (b.toNat / 16), hexDigit (b.toNat % 16)])

/-- `hex().substr(0, 16)`, the short form used in messages. -/
def shortHex (h : Hash256) : String := String.ofList (h.hex.toList.take 16)

theorem isZero_iff {h : Hash256} : h.isZero = true ↔ h = 0 := by
  rw [isZero, beq_iff_eq]

@[simp] theorem bytes_length (h : Hash256) : h.bytes.length = 32 := by
  rw [bytes, List.length_reverse, leBytes_length]

@[simp] theorem ofBytes_bytes (h : Hash256) : ofBytes h.bytes = h := by
  rw [ofBytes, bytes, List.reverse_reverse, ofLeBytes_leBytes]
  apply BitVec.eq_of_toNat_eq
  rw [BitVec.toNat_ofNat]
  have h1 := h.isLt
  have h2 : (256 : Nat) ^ 32 = 2 ^ 256 := by decide
  rw [h2, Nat.mod_mod, Nat.mod_eq_of_lt h1]

end Hash256

/-- A hash map: distinct keys, in some order of iteration. -/
abbrev UMap (K V : Type) := Maps.Map K V

/-- The signed reading of a 64-bit word, `int64_t(x)`. -/
def int64 (x : UInt64) : Int := x.toBitVec.toInt

end QuantCore
