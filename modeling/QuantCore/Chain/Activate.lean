import QuantCore.Chain.Connect

/-!
# Choosing and activating the best chain

`candidates_` is a set ordered by work and, among equals, by arrival; it is kept
here as the ascending list the set iterates. `activate_best_chain` disconnects
to the fork point of the best candidate and connects upwards; an invalid block
is marked failed with everything above it and the search starts over, a block
that is only unreadable or unwitnessed ends the call.

The two graph loops pop a stack of blocks. Children hang below one parent each,
so no block is popped twice and the number of indexed blocks is enough rounds.
-/

namespace QuantCore

variable [Crypto]

namespace Chainstate

/-! ## The candidate set -/

omit [Crypto] in
/-- `WorkCmp`: less work sorts lower, and among equals the later arrival. -/
def workLess (s : Chainstate) (a b : Hash256) : Bool :=
  match U256.cmp (s.work a) (s.work b) with
  | .lt => true
  | .gt => false
  | .eq => (s.entry a).seq > (s.entry b).seq

omit [Crypto] in
def insertSorted (s : Chainstate) (x : Hash256) : List Hash256 → List Hash256
  | [] => [x]
  | y :: ys =>
      if s.workLess x y then x :: y :: ys
      else if s.workLess y x then y :: insertSorted s x ys
      else y :: ys

omit [Crypto] in
def addCandidate (s : Chainstate) (x : Hash256) : Chainstate :=
  { s with candidates := s.insertSorted x s.candidates }

omit [Crypto] in
/-- `erase` by value: what the order does not tell apart from `x`. -/
def eraseCandidate (s : Chainstate) (x : Hash256) : Chainstate :=
  { s with candidates := s.candidates.filter fun y => s.workLess x y || s.workLess y x }

omit [Crypto] in
def bestCandidate (s : Chainstate) : Hash256 :=
  match s.candidates.reverse.find? fun c => !(s.entry c).failed with
  | some c => if (s.work c).gt (s.work s.tip) then c else s.tip
  | none => s.tip

omit [Crypto] in
/-- Candidates that can no longer win. -/
def dropCandidates (s : Chainstate) : Chainstate :=
  { s with candidates := s.candidates.dropWhile fun c => (s.work c).lt (s.work s.tip) }

/-! ## Marking -/

omit [Crypto] in
def markLoop : Nat → List Hash256 → Chainstate → Chainstate
  | 0, _, s => s
  | _, [], s => s
  | k + 1, x :: todo, s =>
      let s := s.modify x fun b => { b with failed := true }
      let s := s.eraseCandidate x
      markLoop k ((s.entry x).children.reverse ++ todo) s

omit [Crypto] in
/-- The best header that has not failed, starting from genesis. -/
def bestUnfailed (s : Chainstate) (genesis : Hash256) : Hash256 :=
  s.index.keys.foldl (fun best h =>
    if !(s.entry h).failed ∧ (s.work h).gt (s.work best) then h else best) genesis

def markFailed (cfg : Config) (s : Chainstate) (b : Hash256) : Chainstate :=
  let s := markLoop (s.index.keys.length + 1) [b] s
  { s with bestHeader := some (s.bestUnfailed cfg.params.genesisHash) }

omit [Crypto] in
def chainDataLoop : Nat → List Hash256 → Chainstate → Chainstate
  | 0, _, s => s
  | _, [], s => s
  | k + 1, x :: todo, s =>
      if !(s.entry x).haveData ∨ (s.entry x).chainData then chainDataLoop k todo s
      else
        let s := s.modify x fun b => { b with chainData := true }
        let s := if (s.entry x).failed then s else s.addCandidate x
        chainDataLoop k ((s.entry x).children.reverse ++ todo) s

omit [Crypto] in
/-- `!b->prev || b->prev->chain_data`. -/
def parentReady (s : Chainstate) (b : Hash256) : Bool :=
  match (s.entry b).prev with
  | some p => (s.entry p).chainData
  | none => true

omit [Crypto] in
def updateChainData (s : Chainstate) (b : Hash256) : Chainstate :=
  if !(s.entry b).haveData ∨ !s.parentReady b then s
  else chainDataLoop (s.index.keys.length + 1) [b] s

/-! ## Flushing -/

/-- `flush`: the snapshot and its checksum. -/
def flush (cfg : Config) (s : Chainstate) : Chainstate :=
  let snap := s.serializeState
  let disk := if cfg.env.fault s.tick .writeUtxo then s.disk
    else { s.disk with utxoDat := some (snap ++ (blake3 snap).bytes) }
  { s with disk, blocksSinceFlush := 0, tick := s.tick + 1 }

omit [Crypto] in
def flushInterval (cfg : Config) (s : Chainstate) : Nat :=
  if s.isInitialSync cfg then 5000 else 100

/-- The flush schedule, after a block was connected. -/
def flushDue (cfg : Config) (s : Chainstate) : Chainstate :=
  let s := { s with blocksSinceFlush := s.blocksSinceFlush + 1 }
  if s.blocksSinceFlush ≥ s.flushInterval cfg then s.flush cfg else s

/-! ## Activation -/

/-- `while (tip() != fork) disconnect_tip(...)`. -/
def unwind (cfg : Config) (fork : Hash256) : Nat → Chainstate → Chainstate × Bool
  | 0, s => (s, s.tip == fork)
  | k + 1, s =>
      if s.tip = fork then (s, true)
      else
        match s.disconnectTip cfg with
        | (s', .ok ()) => unwind cfg fork k s'
        | (s', .error _) => (s', false)

/-- The inner loop over the new branch; the flag is `stalled`. -/
def connectPath (cfg : Config) : List Hash256 → Chainstate → Chainstate × Bool
  | [], s => (s, false)
  | b :: rest, s =>
      match s.connectBlock cfg b with
      | (s', .ok ()) => connectPath cfg rest (s'.flushDue cfg)
      | (s', .error why) =>
          if why = "missing-witness" ∨ why = "read-failed" then (s', true)
          else (s'.markFailed cfg b, false)

/-- The outer loop, with the rounds the guard leaves. -/
def activateLoop (cfg : Config) : Nat → Chainstate → Chainstate
  | 0, s => s
  | guard + 1, s =>
      let cand := s.bestCandidate
      if cand = s.tip ∨ (s.work cand).le (s.work s.tip) then s
      else
        match s.forkPoint cand with
        | none => s
        | some fork =>
            match unwind cfg fork s.chain.length s with
            | (s', false) => s'
            | (s', true) =>
                let path := s'.pathFrom fork ((s'.entry cand).height + 1) cand []
                match connectPath cfg path s' with
                | (s'', true) => s''
                | (s'', false) => activateLoop cfg guard s''

/-- The bound of the outer loop. -/
def activateGuard : Nat := 1000000

def activateBestChain (cfg : Config) (s : Chainstate) : Chainstate :=
  (activateLoop cfg activateGuard s).dropCandidates

end Chainstate

end QuantCore
