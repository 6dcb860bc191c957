import QuantCore.Chain.Callbacks
import QuantCore.Proofs.Frame

/-!
# What listeners learn

The activation with a listener is the activation, and what two listeners of one
call hold stays related if each of the things they can hear of keeps the
relation. What a single listener keeps is the case where both are the same.
-/

namespace QuantCore

variable [Crypto]

namespace Chainstate

variable {M M' : Type}

/-! ## The chain does not notice -/

theorem connectBlockWith_eq (cb : Callbacks M) (cfg : Config) (s : Chainstate) (m : M)
    (idx : Hash256) :
    ((s.connectBlockWith cb cfg m idx).1, (s.connectBlockWith cb cfg m idx).2.2) =
      s.connectBlock cfg idx := by
  rw [connectBlockWith, connectBlock]
  cases s.checkConnect cfg idx with
  | error e => rfl
  | ok x => rfl

theorem disconnectTipWith_eq (cb : Callbacks M) (cfg : Config) (s : Chainstate) (m : M) :
    ((s.disconnectTipWith cb cfg m).1, (s.disconnectTipWith cb cfg m).2.2) =
      s.disconnectTip cfg := by
  simp only [disconnectTipWith, disconnectTip]
  split
  · rfl
  · cases s.readBlock cfg s.tip false with
    | none => rfl
    | some x =>
        cases s.readUndo cfg s.tip with
        | none => rfl
        | some u => rfl

theorem unwindWith_eq (cb : Callbacks M) (cfg : Config) (fork : Hash256) (k : Nat)
    (s : Chainstate) (m : M) :
    ((unwindWith cb cfg fork k s m).1, (unwindWith cb cfg fork k s m).2.2) =
      unwind cfg fork k s := by
  induction k generalizing s m with
  | zero => rfl
  | succ k ih =>
      rw [unwindWith, unwind, ← disconnectTipWith_eq cb cfg s m]
      split
      · rfl
      · rcases s.disconnectTipWith cb cfg m with ⟨s', m', r⟩
        cases r with
        | ok u => exact ih s' m'
        | error e => rfl

theorem connectPathWith_eq (cb : Callbacks M) (cfg : Config) (path : List Hash256)
    (s : Chainstate) (m : M) :
    ((connectPathWith cb cfg path s m).1, (connectPathWith cb cfg path s m).2.2) =
      connectPath cfg path s := by
  induction path generalizing s m with
  | nil => rfl
  | cons b rest ih =>
      rw [connectPathWith, connectPath, ← connectBlockWith_eq cb cfg s m b]
      rcases s.connectBlockWith cb cfg m b with ⟨s', m', r⟩
      cases r with
      | ok u => exact ih (s'.flushDue cfg) m'
      | error why =>
          simp only
          split <;> rfl

theorem activateLoopWith_fst (cb : Callbacks M) (cfg : Config) (k : Nat) (s : Chainstate)
    (m : M) : (activateLoopWith cb cfg k s m).1 = activateLoop cfg k s := by
  induction k generalizing s m with
  | zero => rfl
  | succ k ih =>
      simp only [activateLoopWith, activateLoop]
      split
      · rfl
      · cases s.forkPoint s.bestCandidate with
        | none => rfl
        | some fork =>
            have hu := unwindWith_eq cb cfg fork s.chain.length s m
            simp only
            rw [← hu]
            rcases unwindWith cb cfg fork s.chain.length s m with ⟨s', m', r⟩
            cases r with
            | false => rfl
            | true =>
                have hp := connectPathWith_eq cb cfg
                  (s'.pathFrom fork ((s'.entry s.bestCandidate).height + 1) s.bestCandidate [])
                  s' m'
                simp only
                rw [← hp]
                rcases connectPathWith cb cfg _ s' m' with ⟨s'', m'', r'⟩
                cases r' with
                | true => rfl
                | false => exact ih s'' m''

/-- The activation with a listener is the activation. -/
theorem activateWith_fst (cb : Callbacks M) (cfg : Config) (s : Chainstate) (m : M) :
    (s.activateWith cb cfg m).1 = s.activateBestChain cfg := by
  have h := activateLoopWith_fst cb cfg activateGuard s m
  rw [activateWith, activateBestChain, ← h]
  simp only
  split <;> rfl

end Chainstate

/-! ## Related listeners -/

/-- `R` relates what two listeners hold, whatever happens. -/
structure Callbacks.Related {M M' : Type} (cfg : Config) (cb : Callbacks M)
    (cb' : Callbacks M') (R : Chainstate → M → M' → Prop) : Prop where
  quiet : ∀ {s s' : Chainstate} {m : M} {m' : M'}, R s m m' → s'.reader = s.reader →
    s'.chain = s.chain → R s' m m'
  connect : ∀ {s : Chainstate} {idx : Hash256} {b : Block} {v : LedgerView} {m : M} {m' : M'},
    s.checkConnect cfg idx = .ok (b, v) → R s m m' →
    R (s.commitBlock cfg idx b v) (cb.onConnect b m) (cb'.onConnect b m')
  disconnect : ∀ {s : Chainstate} {b : Block} {u : Undo} {m : M} {m' : M'}, R s m m' →
    R (s.revertBlock b u).ticked (cb.onDisconnect (s.revertBlock b u).ticked b m)
      (cb'.onDisconnect (s.revertBlock b u).ticked b m')

namespace Chainstate

variable {M M' : Type} {cfg : Config} {cb : Callbacks M} {cb' : Callbacks M'}
  {R : Chainstate → M → M' → Prop}

theorem flushDue_reader (cfg : Config) (s : Chainstate) :
    (s.flushDue cfg).reader = s.reader := by
  rw [flushDue]
  split <;> rfl

theorem markFailed_reader (cfg : Config) (s : Chainstate) (b : Hash256) :
    (s.markFailed cfg b).reader = s.reader := by
  rw [(markFailed_flagsOnly cfg s b).rest]
  rfl

/-- The two calls end alike, with related listeners. -/
theorem disconnectTipWith_related (h : cb.Related cfg cb' R) {s : Chainstate} {m : M}
    {m' : M'} (hR : R s m m') : ∃ s₁ m₁ m₁' r, s.disconnectTipWith cb cfg m = (s₁, m₁, r) ∧
      s.disconnectTipWith cb' cfg m' = (s₁, m₁', r) ∧ R s₁ m₁ m₁' := by
  have hq : R s.ticked m m' := h.quiet hR rfl rfl
  simp only [disconnectTipWith]
  split
  · exact ⟨_, _, _, _, rfl, rfl, hq⟩
  · cases s.readBlock cfg s.tip false with
    | none => exact ⟨_, _, _, _, rfl, rfl, hq⟩
    | some x =>
        cases s.readUndo cfg s.tip with
        | none => exact ⟨_, _, _, _, rfl, rfl, hq⟩
        | some u => exact ⟨_, _, _, _, rfl, rfl, h.disconnect hR⟩

theorem connectBlockWith_related (h : cb.Related cfg cb' R) {s : Chainstate} {m : M}
    {m' : M'} (hR : R s m m') (idx : Hash256) :
    ∃ s₁ m₁ m₁' r, s.connectBlockWith cb cfg m idx = (s₁, m₁, r) ∧
      s.connectBlockWith cb' cfg m' idx = (s₁, m₁', r) ∧ R s₁ m₁ m₁' := by
  rw [connectBlockWith, connectBlockWith]
  cases hc : s.checkConnect cfg idx with
  | error e => exact ⟨_, _, _, _, rfl, rfl, h.quiet hR rfl rfl⟩
  | ok x => exact ⟨_, _, _, _, rfl, rfl, h.connect hc hR⟩

theorem unwindWith_related (h : cb.Related cfg cb' R) (fork : Hash256) (k : Nat)
    {s : Chainstate} {m : M} {m' : M'} (hR : R s m m') :
    ∃ s₁ m₁ m₁' r, unwindWith cb cfg fork k s m = (s₁, m₁, r) ∧
      unwindWith cb' cfg fork k s m' = (s₁, m₁', r) ∧ R s₁ m₁ m₁' := by
  induction k generalizing s m m' with
  | zero => exact ⟨_, _, _, _, rfl, rfl, hR⟩
  | succ k ih =>
      rw [unwindWith, unwindWith]
      split
      · exact ⟨_, _, _, _, rfl, rfl, hR⟩
      · obtain ⟨s₁, m₁, m₁', r, h₁, h₂, hR₁⟩ := disconnectTipWith_related h hR
        rw [h₁, h₂]
        cases r with
        | ok u => exact ih hR₁
        | error e => exact ⟨_, _, _, _, rfl, rfl, hR₁⟩

theorem connectPathWith_related (h : cb.Related cfg cb' R) (path : List Hash256)
    {s : Chainstate} {m : M} {m' : M'} (hR : R s m m') :
    ∃ s₁ m₁ m₁' r, connectPathWith cb cfg path s m = (s₁, m₁, r) ∧
      connectPathWith cb' cfg path s m' = (s₁, m₁', r) ∧ R s₁ m₁ m₁' := by
  induction path generalizing s m m' with
  | nil => exact ⟨_, _, _, _, rfl, rfl, hR⟩
  | cons b rest ih =>
      rw [connectPathWith, connectPathWith]
      obtain ⟨s₁, m₁, m₁', r, h₁, h₂, hR₁⟩ := connectBlockWith_related h hR b
      rw [h₁, h₂]
      cases r with
      | ok u => exact ih (h.quiet hR₁ (flushDue_reader cfg s₁) (flushDue_sameTree cfg s₁).chain)
      | error why =>
          simp only
          split
          · exact ⟨_, _, _, _, rfl, rfl, hR₁⟩
          · exact ⟨_, _, _, _, rfl, rfl, h.quiet hR₁ (markFailed_reader cfg s₁ b)
              (markFailed_flagsOnly cfg s₁ b).sameTree.chain⟩

/-- Through the whole loop. -/
theorem activateLoopWith_related (h : cb.Related cfg cb' R) (k : Nat) {s : Chainstate} {m : M}
    {m' : M'} (hR : R s m m') : ∃ s₁ m₁ m₁', activateLoopWith cb cfg k s m = (s₁, m₁) ∧
      activateLoopWith cb' cfg k s m' = (s₁, m₁') ∧ R s₁ m₁ m₁' := by
  induction k generalizing s m m' with
  | zero => exact ⟨_, _, _, rfl, rfl, hR⟩
  | succ k ih =>
      simp only [activateLoopWith]
      split
      · exact ⟨_, _, _, rfl, rfl, hR⟩
      · cases s.forkPoint s.bestCandidate with
        | none => exact ⟨_, _, _, rfl, rfl, hR⟩
        | some fork =>
            obtain ⟨s₁, m₁, m₁', r, h₁, h₂, hR₁⟩ :=
              unwindWith_related h fork s.chain.length hR
            simp only
            rw [h₁, h₂]
            cases r with
            | false => exact ⟨_, _, _, rfl, rfl, hR₁⟩
            | true =>
                obtain ⟨s₂, m₂, m₂', r', h₃, h₄, hR₂⟩ := connectPathWith_related h
                  (s₁.pathFrom fork ((s₁.entry s.bestCandidate).height + 1) s.bestCandidate [])
                  hR₁
                simp only
                rw [h₃, h₄]
                cases r' with
                | true => exact ⟨_, _, _, rfl, rfl, hR₂⟩
                | false => exact ih hR₂

end Chainstate

end QuantCore
