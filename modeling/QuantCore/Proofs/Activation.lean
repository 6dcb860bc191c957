import Mathlib.Logic.Relation
import QuantCore.Chain.Mempool
import QuantCore.Proofs.Callbacks
import QuantCore.Proofs.Script

/-!
# The loops are the machine

`activate_best_chain` is written as loops inside a loop, and the machine of
`Chain.Machine` takes it apart, so that its invariants can be said between any
two transitions. Here the loops are put together again: the call is the machine
run from the top of the outer loop until it is idle.

The only bound that the machine does not have is that of the inner loop over
disconnects, which the model limits to the length of the chain. That many are
never needed: a chain has genesis left in it, so the fork is reached before.

From this, a node with its mempool that is given commands goes through states of
the machine, if what it is given is on offer and its states on the way fit.
-/

namespace QuantCore

open Codec Maps Forest

variable [Crypto]

namespace Chainstate

variable {s s' : Chainstate} {g : Hash256} {cfg : Config} {ph ph' : Phase}
  {x y : Phase × Chainstate}

/-! ## The transitions of a call -/

/-- One transition of a call. -/
def Advances (cfg : Config) (x y : Phase × Chainstate) : Prop :=
  x.1 ≠ .idle ∧ y = activateStep cfg x.1 x.2

/-- Any number of them. -/
def Calls (cfg : Config) : Phase × Chainstate → Phase × Chainstate → Prop :=
  Relation.ReflTransGen (Advances cfg)

theorem Calls.refl (x : Phase × Chainstate) : Calls cfg x x := Relation.ReflTransGen.refl

theorem Calls.trans {z : Phase × Chainstate} (h : Calls cfg x y) (h' : Calls cfg y z) :
    Calls cfg x z := Relation.ReflTransGen.trans h h'

theorem Calls.step (hne : ph ≠ .idle) (he : activateStep cfg ph s = y) :
    Calls cfg (ph, s) y := Relation.ReflTransGen.single ⟨hne, he.symm⟩

theorem Calls.rooted (h : Calls cfg x y) (hr : x.2.Rooted g) (hp : x.1.Rooted x.2) :
    y.2.Rooted g ∧ y.1.Rooted y.2 := by
  induction h with
  | refl => exact ⟨hr, hp⟩
  | tail _ hstep ih =>
      obtain ⟨-, rfl⟩ := hstep
      exact activateStep_rooted ih.1 ih.2 (Prod.eta _).symm

/-! ## The loops -/

/-- The inner loop over disconnects ends on the fork or where one fails. -/
theorem unwind_calls {start cand fork : Hash256} {guard k : Nat} (h : s.Rooted g)
    (hp : Phase.Rooted (.unwind start guard cand fork) s) (hk : s.chain.length ≤ k) :
    (∃ s', unwind cfg fork k s = (s', true) ∧
      Calls cfg (.unwind start guard cand fork, s)
        (.connect start guard (s'.pathFrom fork ((s'.entry cand).height + 1) cand []), s')) ∨
    (∃ s', unwind cfg fork k s = (s', false) ∧
      Calls cfg (.unwind start guard cand fork, s) (.finish start, s')) := by
  have hlen : 0 < s.chain.length := List.length_pos_of_mem (tip_mem h.chain)
  induction k generalizing s with
  | zero => omega
  | succ k ih =>
      rw [unwind]
      split
      · next htip =>
          refine .inl ⟨s, rfl, .step (by simp) ?_⟩
          rw [activateStep, if_pos htip]
      · next htip =>
          split
          · next s₁ hd =>
              have hstep : activateStep cfg (.unwind start guard cand fork) s =
                  (.unwind start guard cand fork, s₁) := by
                rw [activateStep, if_neg htip, hd]
              obtain ⟨hr, hp₁⟩ := activateStep_rooted h hp hstep
              obtain ⟨-, -, hchain, -⟩ := disconnectTip_tree hd
              have hshort : s₁.chain.length ≤ k := by
                rw [hchain rfl, List.length_dropLast]
                omega
              have hcall : Calls cfg (.unwind start guard cand fork, s) _ := .step (by simp) hstep
              rcases ih hr hp₁ hshort (List.length_pos_of_mem (tip_mem hr.chain)) with
                ⟨s', hu, hc⟩ | ⟨s', hu, hc⟩
              · exact .inl ⟨s', hu, hcall.trans hc⟩
              · exact .inr ⟨s', hu, hcall.trans hc⟩
          · next s₁ e hd =>
              refine .inr ⟨s₁, rfl, .step (by simp) ?_⟩
              rw [activateStep, if_neg htip, hd]

/-- The inner loop over the new branch. -/
theorem connectPath_calls {start : Hash256} {guard : Nat} {path : List Hash256} {stalled : Bool}
    (h : connectPath cfg path s = (s', stalled)) :
    Calls cfg (.connect start guard path, s)
      (if stalled then .finish start else .choose start guard, s') := by
  induction path generalizing s with
  | nil =>
      cases h
      exact .step (by simp) rfl
  | cons b rest ih =>
      rw [connectPath] at h
      split at h
      · next s₁ hb =>
          have hstep : activateStep cfg (.connect start guard (b :: rest)) s =
              (.connect start guard rest, s₁.flushDue cfg) := by
            rw [activateStep, hb]
          exact (Calls.step (by simp) hstep).trans (ih h)
      · next s₁ why hb =>
          refine .step (by simp) ?_
          rw [activateStep, hb]
          split at h
          · next hwhy =>
              cases h
              exact if_pos hwhy
          · next hwhy =>
              cases h
              exact if_neg hwhy

/-- The outer loop. -/
theorem activateLoop_calls {start : Hash256} {guard : Nat} (h : s.Rooted g)
    (hp : Phase.Rooted (.choose start guard) s) :
    Calls cfg (.choose start guard, s) (.finish start, activateLoop cfg guard s) := by
  induction guard generalizing s with
  | zero => exact .step (by simp) rfl
  | succ guard ih =>
      rw [activateLoop]
      simp only
      split
      · next hdone =>
          refine .step (by simp) ?_
          rw [activateStep, if_pos hdone]
      · next hdone =>
          split
          · next hfork =>
              refine .step (by simp) ?_
              rw [activateStep, if_neg hdone, hfork]
          · next fork hfork =>
              have hstep : activateStep cfg (.choose start (guard + 1)) s =
                  (.unwind start guard s.bestCandidate fork, s) := by
                rw [activateStep, if_neg hdone, hfork]
              have hchoose : Calls cfg (.choose start (guard + 1), s) _ := .step (by simp) hstep
              obtain ⟨hr, hp₁⟩ := activateStep_rooted h hp hstep
              rcases unwind_calls hr hp₁ (Nat.le_refl _) with ⟨s₁, hu, hc⟩ | ⟨s₁, hu, hc⟩
              · rw [hu]
                have hcall := hchoose.trans hc
                simp only
                cases hpath : connectPath cfg _ s₁ with
                | mk s₂ stalled =>
                    have hround := hcall.trans (connectPath_calls hpath)
                    cases stalled with
                    | true => exact hround
                    | false =>
                        obtain ⟨hr₂, hp₂⟩ := hround.rooted h hp
                        exact hround.trans (ih hr₂ hp₂)
              · rw [hu]
                exact hchoose.trans hc

/-- A call of `activate_best_chain` is the machine run from the top of the outer
loop until it is idle. -/
theorem activateBestChain_calls (h : s.Rooted g) :
    Calls cfg (.choose s.tip activateGuard, s) (.idle, s.activateBestChain cfg) :=
  (activateLoop_calls h h.tip_isSome).trans (.step (by simp) rfl)

/-! ## Runs -/

/-- Every state of the call that begins here fits and meets `ok`. -/
def Smooth (cfg : Config) (ok : Phase → Chainstate → Prop) (x : Phase × Chainstate) : Prop :=
  ∀ y, Calls cfg x y → y.2.Fits ∧ ok y.1 y.2

/-- A run goes on through a smooth call. -/
theorem Reaches.calls {o : Offers} {ok : Phase → Chainstate → Prop} (h : Reaches cfg o ok x.1 x.2)
    (hx : Smooth cfg ok x) (hc : Calls cfg x y) : Reaches cfg o ok y.1 y.2 := by
  induction hc with
  | refl => exact h
  | @tail z w hz hstep ih =>
      obtain ⟨hne, rfl⟩ := hstep
      exact .step ih (hx z hz).2 (.activate hne) (hx _ (hz.tail ⟨hne, rfl⟩)).1

/-- A call whose states fit is smooth. -/
theorem smooth_settle {k : Nat} (hfit : s.Fits) (h : settle cfg k ph s = some s') :
    Smooth cfg anyStep (ph, s) := by
  intro y hy
  refine ⟨?_, trivial⟩
  induction k generalizing ph s with
  | zero => cases h
  | succ k ih =>
      rcases hy.cases_head with rfl | ⟨z, ⟨hne, rfl⟩, hrest⟩
      · exact hfit
      · rw [settle, if_neg hne] at h
        obtain ⟨s₁, hs₁, h⟩ := Option.bind_eq_some_iff.mp h
        obtain ⟨rfl, hfit₁⟩ := fitting_some hs₁
        exact ih hfit₁ h hrest

/-- What a command asks of the world is on offer. -/
def Offers.Sends (o : Offers) : NodeCmd → Prop
  | .accept _ => True
  | .header hd => ∃ b, o.block b ∧ b.header = hd
  | .block b w => o.Delivers b w
  | .snapshot x => o.snapshot x
  | .flush => True
  | .restart => True

end Chainstate

open Chainstate

/-- Where a command has brought the chain when `activate_best_chain`, if it comes
to that, begins. -/
def NodeCmd.begins (cfg : Config) (s : Chainstate) : NodeCmd → Except String (Phase × Chainstate)
  | .accept _ => .ok (.idle, s)
  | .header hd => .ok (.idle, (s.acceptHeader cfg hd).1)
  | .block b w => .ok (enter (s.receiveBlock cfg b w))
  | .snapshot x => .ok (enter (s.receiveSnapshot cfg x))
  | .flush => .ok (.idle, s.flush cfg)
  | .restart => (loadReady cfg s.disk s.tick).map fun s' => (.choose s'.tip activateGuard, s')

namespace FullNode

variable {cfg : Config} {n n' : FullNode} {g : Hash256}

/-- The mempool that listens makes no difference to the chainstate. -/
theorem thenActivate_cs (m : Mempool) (r : Chainstate × Except String Bool) :
    (thenActivate cfg m r).cs = (Chainstate.thenActivate cfg r).1 := by
  obtain ⟨s, r⟩ := r
  cases r with
  | error e => rfl
  | ok go =>
      cases go with
      | false => rfl
      | true => exact activateWith_fst (Mempool.callbacks cfg) cfg s m

/-- The block command does what `accept_block` does. -/
theorem run_block {b : Block} {w : Bool} (h : n.run cfg (.block b w) = .ok n') :
    n'.cs = (n.cs.acceptBlock cfg b w).1 := by
  cases h
  exact thenActivate_cs n.mp _

/-- What follows an entry point is the call it ends in. -/
theorem thenActivate_calls (m : Mempool) {r : Chainstate × Except String Bool}
    (h : r.1.Rooted g) : Calls cfg (enter r) (.idle, (thenActivate cfg m r).cs) := by
  rw [thenActivate_cs]
  obtain ⟨s, r⟩ := r
  cases r with
  | error e => exact .refl _
  | ok go =>
      cases go with
      | false => exact .refl _
      | true => exact activateBestChain_calls h

/-- A start is a call on what was loaded. -/
theorem start_calls {disk : Disk} {tick : Nat} (h : start cfg disk tick = .ok n) :
    ∃ s, loadReady cfg disk tick = .ok s ∧
      Calls cfg (.choose s.tip activateGuard, s) (.idle, n.cs) := by
  rw [start] at h
  cases hl : loadReady cfg disk tick with
  | error e =>
      rw [hl] at h
      cases h
  | ok s =>
      rw [hl] at h
      cases h
      exact ⟨s, rfl, thenActivate_calls (r := (s, .ok true)) {} (loadReady_rooted hl)⟩

/-- A command is what it begins with and the call that follows. -/
theorem run_calls {c : NodeCmd} (hr : n.cs.Rooted cfg.params.genesisHash)
    (h : n.run cfg c = .ok n') :
    ∃ x, c.begins cfg n.cs = .ok x ∧ Calls cfg x (.idle, n'.cs) ∧
      x.2.Rooted cfg.params.genesisHash ∧ x.1.Rooted x.2 := by
  cases c with
  | accept tx =>
      cases h
      exact ⟨_, rfl, .refl _, hr, trivial⟩
  | header hd =>
      cases h
      exact ⟨_, rfl, .refl _, (acceptHeader_grown hr (Prod.eta _).symm).rooted, trivial⟩
  | block b w =>
      cases h
      have hroot := (receiveBlock_grown hr (Prod.eta (n.cs.receiveBlock cfg b w)).symm).rooted
      obtain ⟨he, hp⟩ := enter_rooted hroot (Prod.eta _).symm
      exact ⟨_, rfl, thenActivate_calls n.mp hroot, he ▸ hroot, hp⟩
  | snapshot x =>
      cases h
      have hroot := (receiveSnapshot_rooted hr (Prod.eta (n.cs.receiveSnapshot cfg x)).symm).1
      obtain ⟨he, hp⟩ := enter_rooted hroot (Prod.eta _).symm
      exact ⟨_, rfl, thenActivate_calls n.mp hroot, he ▸ hroot, hp⟩
  | flush =>
      cases h
      exact ⟨_, rfl, .refl _, hr.of_sameTree (flush_sameTree cfg n.cs), trivial⟩
  | restart =>
      obtain ⟨s, hl, hc⟩ := start_calls h
      have hroot := loadReady_rooted hl
      exact ⟨(.choose s.tip activateGuard, s), by rw [NodeCmd.begins, hl]; rfl, hc, hroot,
        hroot.tip_isSome⟩

/-- Between two commands the tree and the chain are in order. -/
theorem Reached.rooted {ok : FullNode → NodeCmd → Prop} (h : Reached cfg ok n) :
    n.cs.Rooted cfg.params.genesisHash := by
  induction h with
  | start h =>
      obtain ⟨s, hl, hc⟩ := start_calls h
      have hroot := loadReady_rooted hl
      exact (hc.rooted hroot hroot.tip_isSome).1
  | run hn _ h ih =>
      obtain ⟨x, -, hc, hroot, hp⟩ := run_calls ih h
      exact (hc.rooted hroot hp).1

/-- What a command begins with is a transition of the machine. -/
theorem begins_step {o : Offers} {ok : Phase → Chainstate → Prop} {c : NodeCmd}
    {s : Chainstate} {x : Phase × Chainstate} (h : Reaches cfg o ok .idle s) (hok : ok .idle s)
    (ho : o.Sends c) (hb : c.begins cfg s = .ok x) (hfit : x.2.Fits) :
    Reaches cfg o ok x.1 x.2 := by
  cases c with
  | accept tx =>
      cases hb
      exact h
  | header hd =>
      cases hb
      obtain ⟨b, hb, rfl⟩ := ho
      exact .step h hok (.header hb) hfit
  | block b w =>
      cases hb
      exact .step h hok (.block ho) hfit
  | snapshot y =>
      cases hb
      exact .step h hok (.snapshot ho) hfit
  | flush =>
      cases hb
      exact .step h hok .flush hfit
  | restart =>
      rw [NodeCmd.begins] at hb
      cases hl : loadReady cfg s.disk s.tick with
      | error e =>
          rw [hl] at hb
          cases hb
      | ok t =>
          rw [hl] at hb
          cases hb
          exact .step h hok (.restart hl) hfit

/-- Commands that are on offer, and whose states on the way fit and meet `ok`. -/
def Orderly (cfg : Config) (o : Offers) (ok : Phase → Chainstate → Prop) (n : FullNode)
    (c : NodeCmd) : Prop :=
  o.Sends c ∧ ∀ x, c.begins cfg n.cs = .ok x → Smooth cfg ok x

/-- Between two commands a node has run to an idle state, and may go on. -/
theorem Reached.idle {o : Offers} {ok : Phase → Chainstate → Prop}
    (hstart : ∀ s, loadReady cfg {} 0 = .ok s → Smooth cfg ok (.choose s.tip activateGuard, s))
    (h : Reached cfg (Orderly cfg o ok) n) : Reaches cfg o ok .idle n.cs ∧ ok .idle n.cs := by
  induction h with
  | start h =>
      obtain ⟨s, hl, hc⟩ := start_calls h
      have hs := hstart s hl
      have hreach : Reaches cfg o ok (.choose s.tip activateGuard) s :=
        .start hl (hs _ (.refl _)).1
      exact ⟨hreach.calls (x := (.choose s.tip activateGuard, s)) hs hc, (hs _ hc).2⟩
  | @run n n' c hn hc h ih =>
      obtain ⟨ho, hsmooth⟩ := hc
      obtain ⟨x, hb, hcalls, -, -⟩ := run_calls hn.rooted h
      have hx := hsmooth x hb
      have hreach := begins_step ih.1 ih.2 ho hb (hx x (.refl _)).1
      exact ⟨hreach.calls hx hcalls, (hx _ hcalls).2⟩

/-- Between two commands a node with its mempool is in an idle state of the
machine. -/
theorem Reached.reaches {o : Offers} {ok : Phase → Chainstate → Prop}
    (hstart : ∀ s, loadReady cfg {} 0 = .ok s → Smooth cfg ok (.choose s.tip activateGuard, s))
    (h : Reached cfg (Orderly cfg o ok) n) : Reaches cfg o ok .idle n.cs :=
  (h.idle hstart).1

theorem Reached.mono {ok ok' : FullNode → NodeCmd → Prop} (h : Reached cfg ok n)
    (hok : ∀ n c, ok n c → ok' n c) : Reached cfg ok' n := by
  induction h with
  | start h => exact .start h
  | run _ hc h ih => exact .run ih (hok _ _ hc) h

end FullNode

end QuantCore

namespace QuantCore.FullNode

open Chainstate

attribute [local instance] stampCrypto

/-- A node that starts and is sent the first block. -/
def firstRun : Except String FullNode :=
  (start (regtestWith Chainstate.quiet) {} 0).bind fun n =>
    n.run (regtestWith Chainstate.quiet) (.block firstBlock true)

theorem smooth_boot {s : Chainstate} (h : loadReady (regtestWith Chainstate.quiet) {} 0 = .ok s) :
    Smooth (regtestWith Chainstate.quiet) anyStep (.choose s.tip activateGuard, s) := by
  have hboot : (boot (regtestWith Chainstate.quiet)).isSome = true := by decide +kernel
  rw [boot, h] at hboot
  obtain ⟨s', hs'⟩ := Option.isSome_iff_exists.mp hboot
  obtain ⟨u, hu, hs'⟩ := Option.bind_eq_some_iff.mp hs'
  cases hu
  obtain ⟨t, ht, hsettle⟩ := Option.bind_eq_some_iff.mp hs'
  obtain ⟨rfl, hfit⟩ := fitting_some ht
  exact smooth_settle hfit hsettle

theorem reaches_first_run : ∃ n, firstRun = .ok n ∧ n.cs.height = 1 ∧
    Reaches (regtestWith Chainstate.quiet) firstOffer anyStep .idle n.cs := by
  have hrun : (firstRun.toOption.any fun n => n.cs.height == 1) = true := by decide +kernel
  have htake : ((start (regtestWith Chainstate.quiet) {} 0).toOption.any fun n =>
      (take (regtestWith Chainstate.quiet) firstBlock n.cs).isSome) = true := by decide +kernel
  rw [firstRun] at hrun ⊢
  cases h₀ : start (regtestWith Chainstate.quiet) {} 0 with
  | error e =>
      rw [h₀] at hrun
      cases hrun
  | ok n₀ =>
      rw [h₀] at hrun htake
      obtain ⟨s, hs⟩ := Option.isSome_iff_exists.mp htake
      obtain ⟨t, ht, hs⟩ := Option.bind_eq_some_iff.mp hs
      obtain ⟨rfl, hfit⟩ := fitting_some ht
      refine ⟨_, rfl, beq_iff_eq.mp hrun, Reached.reaches (fun s => smooth_boot) ?_⟩
      refine .run (c := .block firstBlock true) (.start h₀) ⟨rfl, fun x hx => ?_⟩ rfl
      cases hx
      exact smooth_settle hfit hs

end QuantCore.FullNode
