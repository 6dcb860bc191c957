import QuantCore.Proofs.Branch
import QuantCore.Proofs.Codec

/-!
# Tokens and pools under their own ids

A token is stored under its id and a pool under its token, and the texts of a
token are no longer than a snapshot can hold. The snapshot format relies on
both: it writes the values without their keys.
-/

namespace QuantCore

/-- What a snapshot relies on. -/
structure StateReader.Keyed (s : StateReader) : Prop where
  token : ∀ id t, s.token id = some t → t.id = id ∧ t.Limits
  pool : ∀ id p, s.pool id = some p → p.token = id

theorem keyed_empty : StateReader.empty.Keyed where
  token := fun _ _ h => by cases h
  pool := fun _ _ h => by cases h

/-! ## The checks that bound a token's texts -/

theorem checkOp_limits {tx : Transaction} {m m' : Nat} {o : TxOp}
    (h : checkOp tx m o = .ok m') : o.Limits := by
  cases o with
  | createToken c =>
      simp only [checkOp] at h
      split at h
      · cases h
      next ht =>
      split at h
      · cases h
      next hn =>
      split at h
      · cases h
      next hu =>
      simp only [validTicker, validTokenText, Bool.not_eq_true', Bool.not_eq_false,
        Bool.and_eq_true, decide_eq_true_eq] at ht hn hu
      exact ⟨ht.1.2, hn.1.2, hu.1.2⟩
  | message c =>
      simp only [checkOp] at h
      split at h
      · cases h
      split at h
      · cases h
      split at h
      · cases h
      next hl => exact Nat.le_of_not_lt hl
  | poolCreate c => trivial
  | addLiquidity c => trivial
  | removeLiquidity c => trivial
  | swap c => trivial

theorem checkOps_limits {tx : Transaction} {ops : List TxOp} {m : Nat}
    (h : checkOps tx ops m = .ok ()) : ∀ o ∈ ops, o.Limits := by
  induction ops generalizing m with
  | nil => exact fun o ho => absurd ho List.not_mem_nil
  | cons op ops ih =>
      rw [checkOps] at h
      split at h
      · cases h
      next m' h₁ =>
      intro o ho
      rcases List.mem_cons.mp ho with rfl | ho
      · exact checkOp_limits h₁
      · exact ih h o ho

theorem checkTxBasic_limits {tx : Transaction} {w : Bool} {a : Amount}
    (h : checkTxBasic tx w = .ok a) : ∀ o ∈ tx.ops, o.Limits := by
  rw [checkTxBasic] at h
  split at h
  · cases h
  split at h
  · cases h
  split at h
  · cases h
  next hops => exact checkOps_limits hops

/-! ## The ops -/

theorem poolStep_token {known : Bool} {o : TxOp} {old : Option Pool} {p : Pool} {t : Hash256}
    (h : poolStep known o old = .ok p) (ht : o.poolToken = some t)
    (hold : ∀ q, old = some q → q.token = t) : p.token = t := by
  cases o with
  | createToken c => cases ht
  | message c => cases ht
  | poolCreate c =>
      cases ht
      simp only [poolStep] at h
      split at h
      · cases h
      split at h
      · cases h
      split at h
      · cases h
      split at h
      · cases h
      cases h
      rfl
  | addLiquidity c =>
      cases old with
      | none => cases h
      | some q =>
          simp only [poolStep] at h
          split at h
          · cases h
          split at h
          · cases h
          cases h
          exact hold q rfl
  | removeLiquidity c =>
      cases old with
      | none => cases h
      | some q =>
          simp only [poolStep] at h
          split at h
          · cases h
          split at h
          · cases h
          cases h
          exact hold q rfl
  | swap c =>
      cases old with
      | none => cases h
      | some q =>
          have hq := hold q rfl
          simp only [poolStep] at h
          split at h
          · split at h
            · cases h
            split at h
            · cases h
            cases h
            exact hq
          · split at h
            · cases h
            split at h
            · cases h
            cases h
            exact hq

variable [Crypto]

theorem refOp_keyed {tx : Transaction} {height : UInt64} {coins : List Coin} {i : UInt32}
    {s s' : RefState} {o : TxOp} (h : s.op tx height coins i o = .ok s') (ho : o.Limits)
    (hs : s.state.Keyed) : s'.state.Keyed := by
  have hpool : ∀ t, o.poolToken = some t → s'.state.Keyed := by
    intro t ht
    rw [RefState.op_pool ht] at h
    cases hp : poolStep (s.state.token t).isSome o (s.state.pool t) with
    | error e =>
        rw [hp] at h
        cases h
    | ok p =>
        rw [hp] at h
        cases h
        refine { hs with pool := fun x q hx => ?_ }
        have hx' : Function.update s.state.pool t (some p) x = some q := hx
        rw [Function.update_apply] at hx'
        split at hx'
        · next hxt =>
            cases hx'
            rw [hxt]
            exact poolStep_token hp ht fun q hq => hs.pool t q hq
        · exact hs.pool x q hx'
  cases o with
  | createToken c =>
      simp only [RefState.op] at h
      split at h
      · cases h
      cases h
      refine { hs with token := fun x q hx => ?_ }
      have hx' : Function.update s.state.token _ (some _) x = some q := hx
      rw [Function.update_apply] at hx'
      split at hx'
      · next hxt =>
          cases hx'
          exact ⟨hxt.symm, ho⟩
      · exact hs.token x q hx'
  | message m =>
      simp only [RefState.op] at h
      split at h
      · cases h
        exact hs
      · cases h
  | poolCreate p => exact hpool p.token rfl
  | addLiquidity a => exact hpool a.token rfl
  | removeLiquidity rm => exact hpool rm.token rfl
  | swap s => exact hpool s.token rfl

theorem refOps_keyed {tx : Transaction} {height : UInt64} {coins : List Coin} {i : UInt32}
    {l : List TxOp} {s s' : RefState} (h : s.ops tx height coins i l = .ok s')
    (hl : ∀ o ∈ l, o.Limits) (hs : s.state.Keyed) : s'.state.Keyed := by
  induction l generalizing i s with
  | nil =>
      cases h
      exact hs
  | cons o l ih =>
      rw [RefState.ops] at h
      split at h
      · cases h
      next s₁ h₁ =>
      exact ih h (fun x hx => hl x (List.mem_cons_of_mem o hx))
        (refOp_keyed h₁ (hl o (List.mem_cons_self ..)) hs)

/-- Inputs and outputs are about coins only. -/
theorem refInputs_state {height : UInt64} {genesis : Hash256} {ins : List TxIn}
    {s r : RefState} {cs coins : List Coin}
    (h : RefState.inputs height genesis ins s cs = .ok (coins, r)) :
    r.state.token = s.state.token ∧ r.state.pool = s.state.pool := by
  induction ins generalizing s cs with
  | nil =>
      cases h
      exact ⟨rfl, rfl⟩
  | cons i ins ih =>
      rw [RefState.inputs] at h
      split at h
      · cases h
      split at h
      · cases h
      have hrest := ih h
      exact hrest

omit [Crypto] in
theorem StateReader.Keyed.of_eq {s s' : StateReader} (h : s.Keyed)
    (ht : s'.token = s.token) (hp : s'.pool = s.pool) : s'.Keyed where
  token := fun id t h' => h.token id t (by rwa [← ht])
  pool := fun id p h' => h.pool id p (by rwa [← hp])

omit [Crypto] in
theorem StateReader.Keyed.addCoins {s : StateReader} (h : s.Keyed)
    (l : List (OutPoint × Coin)) : (s.addCoins l).Keyed := by
  rw [StateReader.addCoins_eq]
  exact h.of_eq rfl rfl

theorem step_keyed {s s' : StateReader} {tx : Transaction} {height : UInt64}
    {genesis : Hash256} {verify : Bool} {fee : Amount}
    (h : s.step tx height genesis verify = .ok (s', fee)) (hl : ∀ o ∈ tx.ops, o.Limits)
    (hs : s.Keyed) : s'.Keyed := by
  obtain ⟨-, -, coins, r, r', hin, hops, -, -, rfl⟩ := step_ok h
  obtain ⟨ht, hp⟩ := refInputs_state hin
  exact (refOps_keyed hops hl (hs.of_eq ht hp)).addCoins _

theorem txs_keyed {height : UInt64} {genesis : Hash256} {verify : Bool}
    {txs : List Transaction} {s s' : StateReader} {fees fees' : Amount}
    (h : s.txs height genesis verify txs fees = .ok (s', fees'))
    (hl : ∀ t ∈ txs, ∀ o ∈ t.ops, o.Limits) (hs : s.Keyed) : s'.Keyed := by
  induction txs generalizing s fees with
  | nil =>
      cases h
      exact hs
  | cons tx txs ih =>
      rw [StateReader.txs] at h
      split at h
      · cases h
      next s₁ fee h₁ =>
      exact ih h (fun t ht => hl t (List.mem_cons_of_mem tx ht))
        (step_keyed h₁ (hl tx (List.mem_cons_self ..)) hs)

theorem Branch.keyed {p : ChainParams} {known : Block → Prop} {n : Nat} {h : Hash256}
    {bs : List Block} {L : StateReader} (hb : Branch p known n h bs L) : L.Keyed := by
  induction hb with
  | genesis => exact keyed_empty
  | @block n bs L L' b hb hk hc hn hs ih =>
      obtain ⟨fees, htxs, -⟩ := block_ok hs
      refine txs_keyed htxs ?_ (ih.addCoins _)
      intro t ht
      refine checkTxBasic_limits (w := false) (hc.core.basic t ?_)
      exact List.mem_of_mem_tail ht

end QuantCore
