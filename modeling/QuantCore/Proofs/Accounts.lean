import Mathlib.Data.UInt
import Mathlib.Tactic.Ring
import QuantCore.Proofs.Commit

/-!
# The address index and the supply

`by_addr_` and `supply_` are kept beside the coins and the pools, by the same
calls, and are functions of them: the outpoints of each address, and the sum of
all QNT in coins and pools, in 64-bit arithmetic. A coin must be new where it
is added, and a pool is taken out before it is put in; then every operation on
the maps keeps the two in step.
-/

namespace QuantCore

open Maps
open scoped UInt64.CommRing

/-- What a coin counts for in `supply_`. -/
def Coin.qnt (c : Coin) : Amount := if c.out.isQnt then c.out.value else 0

namespace Chainstate

structure Accounts (s : Chainstate) : Prop where
  owned : ∀ a o, (∃ l, s.byAddr.lookup a = some l ∧ o ∈ l) ↔
    ∃ c, s.utxo.lookup o = some c ∧ c.out.addr = a
  nonempty : ∀ a l, s.byAddr.lookup a = some l → l.Nonempty
  supply : s.supply = total Coin.qnt s.utxo + total Pool.qnt s.pools

variable {s s' : Chainstate}

theorem accounts_clear (s : Chainstate) : s.clearState.Accounts where
  owned := fun a o => by
    constructor
    · rintro ⟨l, hl, -⟩
      cases hl
    · rintro ⟨c, hc, -⟩
      cases hc
  nonempty := fun a l h => by cases h
  supply := rfl

theorem Accounts.of_eq (h : s.Accounts) (hu : s'.utxo = s.utxo) (hb : s'.byAddr = s.byAddr)
    (hp : s'.pools = s.pools) (hs : s'.supply = s.supply) : s'.Accounts where
  owned := by rw [hu, hb]; exact h.owned
  nonempty := by rw [hb]; exact h.nonempty
  supply := by rw [hs, hu, hp]; exact h.supply

/-- The two are determined by the coins and the pools. -/
theorem Accounts.ext (h : s.Accounts) (h' : s'.Accounts) (hr : s'.reader = s.reader) :
    fn s'.byAddr = fn s.byAddr ∧ s'.supply = s.supply := by
  have hu : fn s'.utxo = fn s.utxo := congrArg StateReader.coin hr
  have hp : fn s'.pools = fn s.pools := congrArg StateReader.pool hr
  refine ⟨funext fun a => ?_, ?_⟩
  · have hiff : ∀ o, (∃ l, s'.byAddr.lookup a = some l ∧ o ∈ l) ↔
        ∃ l, s.byAddr.lookup a = some l ∧ o ∈ l := by
      intro o
      rw [h.owned, h'.owned, show s'.utxo.lookup o = s.utxo.lookup o from congrFun hu o]
    show s'.byAddr.lookup a = s.byAddr.lookup a
    cases hl : s.byAddr.lookup a with
    | none =>
        cases hl' : s'.byAddr.lookup a with
        | none => rfl
        | some l' =>
            obtain ⟨o, ho⟩ := h'.nonempty a l' hl'
            obtain ⟨l, hl₁, -⟩ := (hiff o).mp ⟨l', hl', ho⟩
            rw [hl] at hl₁
            cases hl₁
    | some l =>
        cases hl' : s'.byAddr.lookup a with
        | none =>
            obtain ⟨o, ho⟩ := h.nonempty a l hl
            obtain ⟨l', hl₁, -⟩ := (hiff o).mpr ⟨l, hl, ho⟩
            rw [hl'] at hl₁
            cases hl₁
        | some l' =>
            congr 1
            ext o
            have := hiff o
            rw [hl, hl'] at this
            simpa using this
  · rw [h.supply, h'.supply, total_congr _ hu, total_congr _ hp]

/-! ## Coins -/

theorem Accounts.addCoin (h : s.Accounts) {o : OutPoint} (ho : s.utxo.lookup o = none)
    (c : Coin) : (s.addCoin o c).Accounts where
  owned := by
    intro a x
    simp only [Chainstate.addCoin, lookup_insert_ite]
    by_cases hx : x = o
    · subst hx
      rw [if_pos rfl]
      constructor
      · rintro ⟨l, hl, hm⟩
        refine ⟨c, rfl, ?_⟩
        by_contra hne
        rw [if_neg (Ne.symm hne)] at hl
        obtain ⟨c', hc', -⟩ := (h.owned a x).mp ⟨l, hl, hm⟩
        rw [ho] at hc'
        cases hc'
      · rintro ⟨c', hc', rfl⟩
        cases hc'
        rw [if_pos rfl]
        exact ⟨_, rfl, Finset.mem_insert_self ..⟩
    · rw [if_neg hx, ← h.owned]
      by_cases ha : a = c.out.addr
      · rw [if_pos ha, ← ha]
        constructor
        · rintro ⟨l, hl, hm⟩
          cases hl
          rcases Finset.mem_insert.mp hm with hm | hm
          · exact absurd hm hx
          · cases hb : s.byAddr.lookup a with
            | none =>
                rw [hb] at hm
                cases hm
            | some l =>
                rw [hb] at hm
                exact ⟨l, rfl, hm⟩
        · rintro ⟨l, hl, hm⟩
          rw [hl]
          exact ⟨_, rfl, Finset.mem_insert_of_mem hm⟩
      · rw [if_neg ha]
  nonempty := by
    intro a l hl
    simp only [Chainstate.addCoin, lookup_insert_ite] at hl
    split at hl
    · cases hl
      exact Finset.insert_nonempty ..
    · exact h.nonempty a l hl
  supply := by
    have ht := total_insert Coin.qnt (AList.lookup_eq_none.mp ho) c
    have hs := h.supply
    show (if c.out.isQnt then s.supply + c.out.value else s.supply) =
      total Coin.qnt (s.utxo.insert o c) + total Pool.qnt s.pools
    rw [ht, hs, Coin.qnt]
    split <;> ring

/-- Taking out an outpoint that is there. -/
theorem mem_unlink {m : UMap Hash256 (Finset OutPoint)} {addr : Hash256} {o : OutPoint}
    (a : Hash256) (x : OutPoint) :
    (∃ l, (unlink m addr o).lookup a = some l ∧ x ∈ l) ↔
      (∃ l, m.lookup a = some l ∧ x ∈ l) ∧ ¬ (a = addr ∧ x = o) := by
  rw [unlink]
  split
  · next hm =>
      refine ⟨fun hx => ⟨hx, ?_⟩, fun hx => hx.1⟩
      rintro ⟨rfl, -⟩
      obtain ⟨l, hl, -⟩ := hx
      rw [hm] at hl
      cases hl
  · next l hm =>
      by_cases ha : a = addr
      · subst ha
        split
        · next he =>
            rw [lookup_erase_ite, if_pos rfl, hm]
            constructor
            · rintro ⟨l', hl', -⟩
              cases hl'
            · rintro ⟨⟨l', hl', hx⟩, hne⟩
              cases hl'
              have : x ∈ l.erase o := Finset.mem_erase.mpr ⟨fun h => hne ⟨rfl, h⟩, hx⟩
              rw [he] at this
              cases this
        · rw [lookup_insert_ite, if_pos rfl, hm]
          constructor
          · rintro ⟨l', hl', hx⟩
            cases hl'
            obtain ⟨hne, hx⟩ := Finset.mem_erase.mp hx
            exact ⟨⟨l, rfl, hx⟩, fun h => hne h.2⟩
          · rintro ⟨⟨l', hl', hx⟩, hne⟩
            cases hl'
            exact ⟨_, rfl, Finset.mem_erase.mpr ⟨fun h => hne ⟨rfl, h⟩, hx⟩⟩
      · have hl : ∀ m' : UMap Hash256 (Finset OutPoint), m'.lookup a = m.lookup a →
            ((∃ l, m'.lookup a = some l ∧ x ∈ l) ↔
              (∃ l, m.lookup a = some l ∧ x ∈ l) ∧ ¬ (a = addr ∧ x = o)) := by
          intro m' hm'
          rw [hm']
          exact ⟨fun hx => ⟨hx, fun h => ha h.1⟩, fun hx => hx.1⟩
        split
        · exact hl _ (by rw [lookup_erase_ite, if_neg ha])
        · exact hl _ (by rw [lookup_insert_ite, if_neg ha])

theorem Accounts.spendCoin (h : s.Accounts) (o : OutPoint) : (s.spendCoin o).Accounts := by
  rw [Chainstate.spendCoin]
  split
  · exact h
  · next c hc =>
      refine ⟨?_, ?_, ?_⟩
      · intro a x
        simp only []
        rw [mem_unlink, lookup_erase_ite, h.owned]
        by_cases hx : x = o
        · subst hx
          rw [if_pos rfl, hc]
          constructor
          · rintro ⟨⟨c', hc', ha⟩, hne⟩
            cases hc'
            exact absurd ⟨ha.symm, rfl⟩ hne
          · rintro ⟨c', hc', -⟩
            cases hc'
        · rw [if_neg hx]
          exact ⟨fun hx' => hx'.1, fun hx' => ⟨hx', fun h => hx h.2⟩⟩
      · intro a l hl
        simp only [unlink] at hl
        split at hl
        · exact h.nonempty a l hl
        · split at hl
          · rw [lookup_erase_ite] at hl
            split at hl
            · cases hl
            · exact h.nonempty a l hl
          · next he =>
              rw [lookup_insert_ite] at hl
              split at hl
              · cases hl
                exact Finset.nonempty_iff_ne_empty.mpr he
              · exact h.nonempty a l hl
      · have ht := total_erase Coin.qnt hc
        have hs := h.supply
        show (if c.out.isQnt then s.supply - c.out.value else s.supply) =
          total Coin.qnt (s.utxo.erase o) + total Pool.qnt s.pools
        rw [hs, ht, Coin.qnt]
        split <;> ring

/-! ## Pools -/

theorem Accounts.dropPool (h : s.Accounts) (t : Hash256) : (s.dropPool t).Accounts := by
  rw [Chainstate.dropPool]
  split
  · next p hp =>
      refine ⟨h.owned, h.nonempty, ?_⟩
      have ht := total_erase Pool.qnt hp
      have hs := h.supply
      show s.supply - p.qnt = total Coin.qnt s.utxo + total Pool.qnt (s.pools.erase t)
      rw [hs, ht]
      ring
  · exact h

theorem Accounts.insertPool (h : s.Accounts) {t : Hash256} (ht : s.pools.lookup t = none)
    (p : Pool) : Accounts { s with
      pools := s.pools.insert t p
      supply := s.supply + p.qnt } := by
  refine ⟨h.owned, h.nonempty, ?_⟩
  have ht := total_insert Pool.qnt (AList.lookup_eq_none.mp ht) p
  have hs := h.supply
  show s.supply + p.qnt = total Coin.qnt s.utxo + total Pool.qnt (s.pools.insert t p)
  rw [hs, ht]
  ring

theorem Accounts.setPool (h : s.Accounts) (t : Hash256) (p : Option Pool) :
    (s.setPool t p).Accounts := by
  cases p with
  | none => exact h.dropPool t
  | some p =>
      have hl : (s.dropPool t).pools.lookup t = none := by
        have := congrFun (dropPool_pools s t) t
        rwa [Function.update_self] at this
      exact (h.dropPool t).insertPool hl p

/-! ## Loops -/

theorem Accounts.spendAll (h : s.Accounts) (l : List OutPoint) :
    (l.foldl Chainstate.spendCoin s).Accounts := by
  induction l generalizing s with
  | nil => exact h
  | cons o l ih => exact ih (h.spendCoin o)

theorem Accounts.setPools (h : s.Accounts) (l : List (Hash256 × Option Pool)) :
    (l.foldl (fun s e => s.setPool e.1 e.2) s).Accounts := by
  induction l generalizing s with
  | nil => exact h
  | cons e l ih => exact ih (h.setPool e.1 e.2)

/-- New coins, each once. -/
theorem Accounts.addCoins (h : s.Accounts) {l : List (OutPoint × Coin)}
    (hnd : (l.map Prod.fst).Nodup) (hl : ∀ o ∈ l.map Prod.fst, s.utxo.lookup o = none) :
    (l.foldl (fun s e => s.addCoin e.1 e.2) s).Accounts := by
  induction l generalizing s with
  | nil => exact h
  | cons e l ih =>
      rw [List.map_cons] at hnd hl
      obtain ⟨he, hnd⟩ := List.nodup_cons.mp hnd
      refine ih (h.addCoin (hl e.1 (List.mem_cons_self ..)) e.2) hnd fun o ho => ?_
      show (s.utxo.insert e.1 e.2).lookup o = none
      rw [lookup_insert_ite, if_neg]
      · exact hl o (List.mem_cons_of_mem _ ho)
      · rintro rfl
        exact he ho

theorem Accounts.insertPools (h : s.Accounts) {l : List Pool}
    (hnd : (l.map Pool.token).Nodup) (hl : ∀ t ∈ l.map Pool.token, s.pools.lookup t = none) :
    (l.foldl (fun s p => { s with
      pools := s.pools.insert p.token p
      supply := s.supply + p.qnt }) s).Accounts := by
  induction l generalizing s with
  | nil => exact h
  | cons p l ih =>
      rw [List.map_cons] at hnd hl
      obtain ⟨hp, hnd⟩ := List.nodup_cons.mp hnd
      refine ih (h.insertPool (hl p.token (List.mem_cons_self ..)) p) hnd fun t ht => ?_
      show (s.pools.insert p.token p).lookup t = none
      rw [lookup_insert_ite, if_neg]
      · exact hl t (List.mem_cons_of_mem _ ht)
      · rintro rfl
        exact hp ht

theorem foldl_addToken_accounts (h : s.Accounts) (l : List (Hash256 × TokenInfo)) :
    (l.foldl (fun s e => s.addToken e.1 e.2) s).Accounts := by
  induction l generalizing s with
  | nil => exact h
  | cons e l ih => exact ih (@Accounts.of_eq s (s.addToken e.1 e.2) h rfl rfl rfl rfl)

end Chainstate

end QuantCore
