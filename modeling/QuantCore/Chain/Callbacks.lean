import QuantCore.Chain.Accept

/-!
# Listening to the chainstate

`on_connect`, `on_disconnect` and `on_tip`: what else lives on the chain hears
of every block that comes and goes, and of a new tip at the end of a call of
`activate_best_chain`, if the tip it ends on is not the one it started from.
The activation below is that of `Chain.Activate` with a listener's state carried
along. `on_connect` is called before the snapshot of the new tip is written and
old files are pruned, which no listener looks at.
-/

namespace QuantCore

variable [Crypto]

/-- A listener of state `M`. -/
structure Callbacks (M : Type) where
  onConnect : Block → M → M
  onDisconnect : Chainstate → Block → M → M
  onTip : Chainstate → M → M

namespace Chainstate

variable {M : Type}

def connectBlockWith (cb : Callbacks M) (cfg : Config) (s : Chainstate) (m : M)
    (idx : Hash256) : Chainstate × M × Except String Unit :=
  match s.checkConnect cfg idx with
  | .error e => (s.ticked, m, .error e)
  | .ok (b, view) => (s.commitBlock cfg idx b view, cb.onConnect b m, .ok ())

def disconnectTipWith (cb : Callbacks M) (cfg : Config) (s : Chainstate) (m : M) :
    Chainstate × M × Except String Unit :=
  let t := s.tip
  if (s.entry t).height = 0 ∨ (s.entry t).fromSnapshot then
    (s.ticked, m, .error "cannot-disconnect-base")
  else
    match s.readBlock cfg t false, s.readUndo cfg t with
    | some (b, _), some u =>
        let s' := (s.revertBlock b u).ticked
        (s', cb.onDisconnect s' b m, .ok ())
    | _, _ => (s.ticked, m, .error "missing-undo-data")

def unwindWith (cb : Callbacks M) (cfg : Config) (fork : Hash256) :
    Nat → Chainstate → M → Chainstate × M × Bool
  | 0, s, m => (s, m, s.tip == fork)
  | k + 1, s, m =>
      if s.tip = fork then (s, m, true)
      else
        match s.disconnectTipWith cb cfg m with
        | (s', m', .ok ()) => unwindWith cb cfg fork k s' m'
        | (s', m', .error _) => (s', m', false)

def connectPathWith (cb : Callbacks M) (cfg : Config) :
    List Hash256 → Chainstate → M → Chainstate × M × Bool
  | [], s, m => (s, m, false)
  | b :: rest, s, m =>
      match s.connectBlockWith cb cfg m b with
      | (s', m', .ok ()) => connectPathWith cb cfg rest (s'.flushDue cfg) m'
      | (s', m', .error why) =>
          if why = "missing-witness" ∨ why = "read-failed" then (s', m', true)
          else (s'.markFailed cfg b, m', false)

def activateLoopWith (cb : Callbacks M) (cfg : Config) :
    Nat → Chainstate → M → Chainstate × M
  | 0, s, m => (s, m)
  | guard + 1, s, m =>
      let cand := s.bestCandidate
      if cand = s.tip ∨ (s.work cand).le (s.work s.tip) then (s, m)
      else
        match s.forkPoint cand with
        | none => (s, m)
        | some fork =>
            match unwindWith cb cfg fork s.chain.length s m with
            | (s', m', false) => (s', m')
            | (s', m', true) =>
                let path := s'.pathFrom fork ((s'.entry cand).height + 1) cand []
                match connectPathWith cb cfg path s' m' with
                | (s'', m'', true) => (s'', m'')
                | (s'', m'', false) => activateLoopWith cb cfg guard s'' m''

def activateWith (cb : Callbacks M) (cfg : Config) (s : Chainstate) (m : M) :
    Chainstate × M :=
  match activateLoopWith cb cfg activateGuard s m with
  | (s', m') =>
      let s' := s'.dropCandidates
      if s'.tip ≠ s.tip then (s', cb.onTip s' m') else (s', m')

end Chainstate

end QuantCore
