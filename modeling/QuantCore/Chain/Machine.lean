import QuantCore.Chain.Accept

/-!
# The node as a machine

The entry points of the chainstate as transitions. Between two of them the node
is idle; an entry point that ends in `activate_best_chain` leaves it at the top
of the outer loop, and from there every disconnect, every connect and every
choice of a candidate is a transition of its own, so that what holds "whenever"
during a call can be said of a state. `activateStep` is the loop taken apart;
that the loop is this machine run until it is idle again is proved with the
invariants.

A run begins on an empty data directory. It can be cut off between any two
transitions and resumed from what is on disk. What arrives from outside is a
parameter: the blocks peers and the miner have to offer, whole or without their
signatures, and the snapshots.
-/

namespace QuantCore

variable [Crypto]

namespace Chainstate

/-- Where a call of `activate_best_chain` is, with its local variables: the tip
it `start`ed from, the rounds the guard leaves, the candidate and its fork, and
the blocks still to connect. -/
inductive Phase
  | idle
  /-- At the top of the outer loop. -/
  | choose (start : Hash256) (guard : Nat)
  /-- Disconnecting down to `fork` for the sake of `cand`. -/
  | unwind (start : Hash256) (guard : Nat) (cand fork : Hash256)
  /-- Connecting the blocks of `path`. -/
  | connect (start : Hash256) (guard : Nat) (path : List Hash256)
  /-- Past the outer loop. -/
  | finish (start : Hash256)
deriving DecidableEq

def activateStep (cfg : Config) : Phase → Chainstate → Phase × Chainstate
  | .idle, s => (.idle, s)
  | .choose start 0, s => (.finish start, s)
  | .choose start (guard + 1), s =>
      if s.bestCandidate = s.tip ∨ (s.work s.bestCandidate).le (s.work s.tip) then
        (.finish start, s)
      else
        match s.forkPoint s.bestCandidate with
        | none => (.finish start, s)
        | some fork => (.unwind start guard s.bestCandidate fork, s)
  | .unwind start guard cand fork, s =>
      if s.tip = fork then
        (.connect start guard (s.pathFrom fork ((s.entry cand).height + 1) cand []), s)
      else
        match s.disconnectTip cfg with
        | (s', .ok ()) => (.unwind start guard cand fork, s')
        | (s', .error _) => (.finish start, s')
  | .connect start guard [], s => (.choose start guard, s)
  | .connect start guard (b :: rest), s =>
      match s.connectBlock cfg b with
      | (s', .ok ()) => (.connect start guard rest, s'.flushDue cfg)
      | (s', .error why) =>
          if why = "missing-witness" ∨ why = "read-failed" then (.finish start, s')
          else (.choose start guard, s'.markFailed cfg b)
  | .finish _, s => (.idle, s.dropCandidates)

/-- What the world has to offer a node. -/
structure Offers where
  block : Block → Prop
  snapshot : Bytes → Prop

omit [Crypto] in
/-- A block is sent with its signatures or without. -/
def Offers.Delivers (o : Offers) (b : Block) (hasWitness : Bool) : Prop :=
  if hasWitness then o.block b else ∃ full, o.block full ∧ b = full.core

omit [Crypto] in
/-- Where an entry point leaves the node. -/
def enter : Chainstate × Except String Bool → Phase × Chainstate
  | (s, .ok true) => (.choose s.tip activateGuard, s)
  | (s, .ok false) => (.idle, s)
  | (s, .error _) => (.idle, s)

inductive Step (cfg : Config) (o : Offers) : Phase × Chainstate → Phase × Chainstate → Prop
  | header {s : Chainstate} {b : Block} (h : o.block b) :
      Step cfg o (.idle, s) (.idle, (s.acceptHeader cfg b.header).1)
  | block {s : Chainstate} {b : Block} {w : Bool} (h : o.Delivers b w) :
      Step cfg o (.idle, s) (enter (s.receiveBlock cfg b w))
  | snapshot {s : Chainstate} {x : Bytes} (h : o.snapshot x) :
      Step cfg o (.idle, s) (enter (s.receiveSnapshot cfg x))
  | flush {s : Chainstate} : Step cfg o (.idle, s) (.idle, s.flush cfg)
  | activate {ph : Phase} {s : Chainstate} (h : ph ≠ .idle) :
      Step cfg o (ph, s) (activateStep cfg ph s)
  | restart {ph : Phase} {s s' : Chainstate} (h : loadReady cfg s.disk s.tick = .ok s') :
      Step cfg o (ph, s) (.choose s'.tip activateGuard, s')

omit [Crypto] in
/-- The containers and files are of sizes their counters can hold: heights are
`int64_t`, sizes and file positions 64-bit. -/
structure Fits (s : Chainstate) : Prop where
  index : s.index.keys.length < 2 ^ 63
  utxo : s.utxo.keys.length < 2 ^ 64
  tokens : s.tokens.keys.length < 2 ^ 64
  pools : s.pools.keys.length < 2 ^ 64
  blocks : s.disk.blocks.length < 2 ^ 64

/-- The states a node can get into, by steps that were all taken in a state that
meets `ok`. -/
inductive Reaches (cfg : Config) (o : Offers) (ok : Phase → Chainstate → Prop) :
    Phase → Chainstate → Prop
  | start {s : Chainstate} (h : loadReady cfg {} 0 = .ok s) (hfit : s.Fits) :
      Reaches cfg o ok (.choose s.tip activateGuard) s
  | step {ph ph' : Phase} {s s' : Chainstate} (hs : Reaches cfg o ok ph s) (hok : ok ph s)
      (h : Step cfg o (ph, s) (ph', s')) (hfit : s'.Fits) : Reaches cfg o ok ph' s'

omit [Crypto] in
/-- No condition on the steps. -/
def anyStep : Phase → Chainstate → Prop := fun _ _ => True

end Chainstate

end QuantCore
