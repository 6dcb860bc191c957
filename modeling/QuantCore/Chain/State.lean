import QuantCore.Consensus.LedgerView
import QuantCore.Consensus.Pow

/-!
# The chainstate's data

The block tree, the active chain, the ledger maps and the files. Pointers into
the block tree are block hashes, the key under which `index_` owns the node:
`entry` follows one. A file system is a handful of files of known names; a file
operation fails when the environment says so, which is a function of the
operation and of a counter that every top-level step advances, so that any
pattern of failures over a run is one environment.

Left out are the mutex, the log, the callbacks, the file handles and the counts
shown by `stats`; nothing below reads them.
-/

namespace QuantCore

structure BlockIndex where
  hash : Hash256
  header : BlockHeader
  height : Nat
  chainwork : U256
  prev : Option Hash256
  /-- Skip-list pointer for ancestor lookups. -/
  skip : Option Hash256
  /-- Arrival order. -/
  seq : Nat
  children : List Hash256 := []
  haveData : Bool := false
  /-- This block and all ancestors have data. -/
  chainData : Bool := false
  failed : Bool := false
  dataPos : Nat := 0
  dataLen : Nat := 0
  fromSnapshot : Bool := false
deriving Inhabited

/-- The data directory. `headers`, `blocks` and `blockpos` are append-only;
`witness`, `undo` and `snapshots` hold one file per block. -/
structure Disk where
  headers : Bytes := []
  blocks : Bytes := []
  blockpos : Bytes := []
  witness : UMap Hash256 Bytes := ∅
  undo : UMap Hash256 Bytes := ∅
  snapshots : UMap Hash256 Bytes := ∅
  utxoDat : Option Bytes := none
  baseDat : Option Bytes := none

/-- A file operation, with the block whose data it is about. -/
inductive IoOp
  | readCore (h : Hash256)
  | readWitness (h : Hash256)
  | readUndo (h : Hash256)
  | readSnapshot (h : Hash256)
  | readUtxo
  | readBase
  | writeBlock
  | writeWitness
  | writeUndo
  | writeSnapshot
  | writeUtxo
  | writeBase
deriving DecidableEq, Repr

/-- What the code asks of the world: does this file operation fail, and what
time is it. -/
structure Env where
  fault : Nat → IoOp → Bool
  clock : Nat → Int

/-- What a `Chainstate` is constructed with, and the world it runs in. -/
structure Config where
  network : Network
  prune : Bool
  env : Env

/-- `params()`. -/
def Config.params [Crypto] (cfg : Config) : ChainParams := paramsFor cfg.network

structure Chainstate where
  /-- `std::set` under `WorkCmp`, ascending. -/
  candidates : List Hash256 := []
  nextSeq : Nat := 0
  index : UMap Hash256 BlockIndex := ∅
  chain : List Hash256 := []
  bestHeader : Option Hash256 := none
  utxo : UMap OutPoint Coin := ∅
  byAddr : UMap Hash256 (Finset OutPoint) := ∅
  txindex : UMap Hash256 Hash256 := ∅
  tokens : UMap Hash256 TokenInfo := ∅
  pools : UMap Hash256 Pool := ∅
  /-- Hashes of the snapshot files held. -/
  snapshotHash : UMap Hash256 Hash256 := ∅
  snapshotBase : Nat := 0
  supply : Amount := 0
  blocksSinceFlush : Nat := 0
  disk : Disk := {}
  tick : Nat := 0

namespace Chainstate

/-! ## The block tree -/

def lookup (s : Chainstate) (h : Hash256) : Option BlockIndex := s.index.lookup h

/-- Follow a pointer. -/
def entry (s : Chainstate) (h : Hash256) : BlockIndex := (s.index.lookup h).getD default

/-- Assign through a pointer. -/
def modify (s : Chainstate) (h : Hash256) (f : BlockIndex → BlockIndex) : Chainstate :=
  match s.index.lookup h with
  | some b => { s with index := s.index.insert h (f b) }
  | none => s

def tip (s : Chainstate) : Hash256 := s.chain.getLastD 0

def height (s : Chainstate) : Nat := s.chain.length - 1

def atHeight (s : Chainstate) (h : Nat) : Option Hash256 := s.chain[h]?

def inActiveChain (s : Chainstate) (b : Hash256) : Bool :=
  s.atHeight (s.entry b).height == some b

def work (s : Chainstate) (b : Hash256) : U256 := (s.entry b).chainwork

/-- `best_header_->height`; the pointer is set once there is a genesis. -/
def bestHeaderHeight (s : Chainstate) : Nat :=
  match s.bestHeader with
  | some b => (s.entry b).height
  | none => 0

/-! ## Skip list -/

def invertLowestOne (n : Nat) : Nat := n &&& (n - 1)

def skipHeight (h : Nat) : Nat :=
  if h < 2 then 0
  else if h % 2 = 1 then invertLowestOne (invertLowestOne (h - 1)) + 1
  else invertLowestOne h

/-- The loop of `ancestor`: the pointer and its height go down together; every
round lowers the height, so the height is enough rounds. -/
def walkDown (s : Chainstate) (height : Nat) : Nat → Hash256 → Nat → Option Hash256
  | 0, walk, _ => some walk
  | k + 1, walk, hw =>
      if hw ≤ height then some walk
      else
        let hs := skipHeight hw
        let hsp := skipHeight (hw - 1)
        match (s.entry walk).skip with
        | some sk =>
            if hs = height ∨ (hs > height ∧ ¬ (hsp + 2 < hs ∧ hsp ≥ height)) then
              walkDown s height k sk hs
            else
              match (s.entry walk).prev with
              | some p => walkDown s height k p (hw - 1)
              | none => none
        | none =>
            match (s.entry walk).prev with
            | some p => walkDown s height k p (hw - 1)
            | none => none

def ancestor (s : Chainstate) (b : Hash256) (height : Nat) : Option Hash256 :=
  if height > (s.entry b).height then none
  else if s.inActiveChain b then s.atHeight height
  else walkDown s height (s.entry b).height b (s.entry b).height

/-- `while (a && !in_active_chain(a)) a = a->prev`. -/
def toActive (s : Chainstate) : Nat → Option Hash256 → Option Hash256
  | _, none => none
  | 0, some a => if s.inActiveChain a then some a else none
  | k + 1, some a =>
      if s.inActiveChain a then some a else toActive s k (s.entry a).prev

/-- Where the branch of `b` leaves the active chain. -/
def forkPoint (s : Chainstate) (b : Hash256) : Option Hash256 :=
  let a := s.ancestor b (min (s.entry b).height (s.entry s.tip).height)
  s.toActive (s.entry b).height a

/-- The pointers from a block down to, and without, `fork`, oldest first. -/
def pathFrom (s : Chainstate) (fork : Hash256) : Nat → Hash256 → List Hash256 → List Hash256
  | 0, _, path => path
  | k + 1, w, path =>
      if w = fork then path
      else
        match (s.entry w).prev with
        | some p => pathFrom s fork k p (w :: path)
        | none => w :: path

/-- `chain_[w->height] = w` for every block from `b` down to genesis. -/
def chainTo (s : Chainstate) : Nat → Hash256 → List Hash256 → List Hash256
  | 0, w, path => w :: path
  | k + 1, w, path =>
      match (s.entry w).prev with
      | some p => chainTo s k p (w :: path)
      | none => w :: path

def linkChild (s : Chainstate) (p : Option Hash256) (c : Hash256) : Chainstate :=
  match p with
  | some p => s.modify p fun q => { q with children := q.children ++ [c] }
  | none => s

/-- A new header becomes the best header if it has more work. -/
def raiseBestHeader (s : Chainstate) (b : BlockIndex) : Chainstate :=
  match s.bestHeader with
  | some best =>
      if b.chainwork.gt (s.work best) then { s with bestHeader := some b.hash } else s
  | none => { s with bestHeader := some b.hash }

variable [Crypto]

/-- The node `add_index` makes for a header. -/
def newEntry (s : Chainstate) (h : BlockHeader) : BlockIndex :=
  match s.lookup h.prev with
  | some p =>
      { hash := h.hash, header := h, height := p.height + 1, prev := some h.prev
        seq := s.nextSeq
        chainwork := p.chainwork.add (U256.workFromTarget (U256.ofCompact h.bits))
        skip := s.ancestor h.prev (skipHeight (p.height + 1)) }
  | none =>
      { hash := h.hash, header := h, height := 0, prev := none, seq := s.nextSeq
        chainwork := U256.add {} (U256.workFromTarget (U256.ofCompact h.bits))
        skip := none }

/-- `add_index`. -/
def addIndex (s : Chainstate) (h : BlockHeader) : Chainstate :=
  let b := s.newEntry h
  let linked := { s with nextSeq := s.nextSeq + 1 }.linkChild b.prev b.hash
  { linked with index := linked.index.insert b.hash b }.raiseBestHeader b

/-! ## Header rules -/

omit [Crypto] in
/-- The times of up to `k` headers, from `b` down. -/
def timesBack (s : Chainstate) : Nat → Option Hash256 → List Int
  | 0, _ => []
  | _, none => []
  | k + 1, some b => int64 (s.entry b).header.time :: timesBack s k (s.entry b).prev

omit [Crypto] in
def medianTimePast (s : Chainstate) (b : Hash256) : Int :=
  let t := (s.timesBack medianTimeSpan (some b)).insertionSort (· ≤ ·)
  t.getD (t.length / 2) 0

omit [Crypto] in
def headersBack (s : Chainstate) : Nat → Option Hash256 → List HeaderInfo
  | 0, _ => []
  | _, none => []
  | k + 1, some b =>
      ⟨(s.entry b).header.time, (s.entry b).header.bits⟩ ::
        headersBack s k (s.entry b).prev

omit [Crypto] in
def nextBitsFor (p : ChainParams) (s : Chainstate) (prev : Hash256) : UInt32 :=
  let back := s.headersBack (lwmaWindow + 2) (some prev)
  nextBits (s.entry prev).height (fun i => back.getD i default) p

omit [Crypto] in
def isInitialSync (cfg : Config) (s : Chainstate) : Bool :=
  s.bestHeaderHeight > (s.entry s.tip).height + 10 ||
    int64 (s.entry s.tip).header.time < cfg.env.clock s.tick - 24 * 3600

end Chainstate

end QuantCore
