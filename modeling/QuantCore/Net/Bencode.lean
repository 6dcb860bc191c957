import QuantCore.Util.Numbers

/-!
# Bencode

`benc` and `bdec` of the DHT. The decoder works on a position in the packet and
calls library functions that throw, so it is a value of `Except`; what it
returns is the value and the position after it, or nothing. It is recursive with
a limit on the depth, and its loops run up to the end of a container: both get a
number of rounds, and running out of them is an outcome of its own.

A `std::map` is the list of its entries in the order of their keys, which is
that of the unsigned bytes.
-/

namespace QuantCore

/-! ## Values -/

inductive BVal
  | int (i : Int64)
  | str (s : Bytes)
  | list (l : List BVal)
  | dict (d : List (Bytes × BVal))
deriving Repr

def bencStr (s : Bytes) : Bytes := sizeText s.length ++ 0x3a :: s

mutual

def benc : BVal → Bytes
  | .int i => 0x69 :: (intText i ++ [0x65])
  | .str s => bencStr s
  | .list l => 0x6c :: (bencItems l ++ [0x65])
  | .dict d => 0x64 :: (bencEntries d ++ [0x65])

def bencItems : List BVal → Bytes
  | [] => []
  | x :: l => benc x ++ bencItems l

def bencEntries : List (Bytes × BVal) → Bytes
  | [] => []
  | (k, x) :: d => bencStr k ++ (benc x ++ bencEntries d)

end

/-! ## Library calls -/

/-- How a call ends other than by returning: with an exception or, in the model
alone, without having had enough rounds. -/
inductive BencStop
  | threw
  | outOfRounds
deriving DecidableEq, Repr

/-- `substr`; `none` where it throws. -/
def substr (s : Bytes) (pos n : Nat) : Option Bytes :=
  if pos > s.length then none else some ((s.drop pos).take n)

/-- `find` of a byte from a position on; `npos` is `none`. -/
def findByte (s : Bytes) (c : UInt8) (pos : Nat) : Option Nat :=
  ((s.drop pos).findIdx? (· == c)).map (· + pos)

/-- `d[k] = x`. -/
def putEntry (k : Bytes) (x : BVal) : List (Bytes × BVal) → List (Bytes × BVal)
  | [] => [(k, x)]
  | (k', x') :: d =>
      if k < k' then (k, x) :: (k', x') :: d
      else if k = k' then (k, x) :: d
      else (k', x') :: putEntry k x d

/-! ## Decoding -/

/-- What the decoder has read and where it stands, or that it returns false. -/
abbrev BencResult (α : Type) := Option (α × Nat)

/-- `i`, with every exception caught. -/
def bdecInt (inp : Bytes) (p : Nat) : Except BencStop (BencResult BVal) :=
  match findByte inp 0x65 p with
  | none => pure none
  | some e =>
      if e - p > 21 then pure none
      else
        match (substr inp (p + 1) (e - p - 1)).bind stoll with
        | none => pure none
        | some i => pure (some (.int i, e + 1))

def bdecStr (inp : Bytes) (p : Nat) : Except BencStop (BencResult BVal) :=
  match findByte inp 0x3a p with
  | none => pure none
  | some colon =>
      if colon - p > 8 then pure none
      else
        match (substr inp p (colon - p)).bind stoul with
        | none => throw .threw
        | some n =>
            if colon + 1 + n.toNat > inp.length then pure none
            else
              match substr inp (colon + 1) n.toNat with
              | none => throw .threw
              | some s => pure (some (.str s, colon + 1 + n.toNat))

/-- The loop of a container, up to the `e` that closes it; a round reads what it
reads into the contents so far. -/
def bdecLoop {σ : Type} (inp : Bytes) (round : Nat → σ → Except BencStop (BencResult σ)) :
    Nat → Nat → σ → Except BencStop (BencResult σ)
  | 0, _, _ => throw .outOfRounds
  | rounds + 1, p, out =>
      if p < inp.length ∧ inp.getD p 0 ≠ 0x65 then do
        match ← round p out with
        | none => pure none
        | some (out, p) => bdecLoop inp round rounds p out
      else if p ≥ inp.length then pure none
      else pure (some (out, p + 1))

/-- A round of a list. -/
def bdecItem (dec : Nat → Except BencStop (BencResult BVal)) (p : Nat) (l : List BVal) :
    Except BencStop (BencResult (List BVal)) := do
  match ← dec p with
  | none => pure none
  | some (x, p) => pure (some (l ++ [x], p))

/-- A round of a dictionary: the key has to be a string. -/
def bdecEntry (dec : Nat → Except BencStop (BencResult BVal)) (p : Nat) (d : List (Bytes × BVal)) :
    Except BencStop (BencResult (List (Bytes × BVal))) := do
  match ← dec p with
  | some (.str k, p) =>
      match ← dec p with
      | none => pure none
      | some (x, p) => pure (some (putEntry k x d, p))
  | _ => pure none

/-- `bdec`, within some levels of recursion. -/
def bdecLevels (inp : Bytes) : Nat → Nat → Nat → Except BencStop (BencResult BVal)
  | 0, _, _ => throw .outOfRounds
  | levels + 1, p, depth =>
      if depth > 16 ∨ p ≥ inp.length then pure none
      else
        let c := inp.getD p 0
        let inner := fun p => bdecLevels inp levels p (depth + 1)
        if c = 0x69 then bdecInt inp p
        else if c = 0x6c then do
          let r ← bdecLoop inp (bdecItem inner) (inp.length + 1) (p + 1) []
          pure (r.map fun out => (.list out.1, out.2))
        else if c = 0x64 then do
          let r ← bdecLoop inp (bdecEntry inner) (inp.length + 1) (p + 1) []
          pure (r.map fun out => (.dict out.1, out.2))
        else if 0x30 ≤ c ∧ c ≤ 0x39 then bdecStr inp p
        else pure none

/-- `bdec`: no call is deeper than the one that depth 17 refuses. -/
def bdec (inp : Bytes) (p depth : Nat) : Except BencStop (BencResult BVal) := bdecLevels inp 18 p depth

end QuantCore
