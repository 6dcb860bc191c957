import QuantCore.Proofs.WalletScan
import Mathlib.Algebra.BigOperators.Group.List.Basic
import Mathlib.Data.Int.ModEq

/-!
# Recorded amounts

The amounts of a history entry, up to multiples of `2 ^ 64`: what the outputs at
our addresses add up to, less what the inputs that were found do.
-/

namespace QuantCore

open Maps

theorem wrap64_modEq (i : Int) : wrap64 i ≡ i [ZMOD 2 ^ 64] := Int.bmod_emod

namespace Deltas

theorem get_add (d : Deltas) (a x : Hash256) (v : Int) :
    (d.add a v).get x = if x = a then wrap64 (d.get a + v) else d.get x := by
  rw [get, add, lookup_insert_ite]
  split
  · rfl
  · rfl

theorem get_add_modEq (d : Deltas) (a x : Hash256) (v : Int) :
    (d.add a v).get x ≡ d.get x + (if a = x then v else 0) [ZMOD 2 ^ 64] := by
  rw [get_add]
  by_cases h : x = a
  · rw [if_pos h, if_pos h.symm, h]
    exact wrap64_modEq _
  · rw [if_neg h, if_neg fun he => h he.symm, Int.add_zero]

/-- The tokens of an entry: those whose amount is not zero. -/
theorem tokens_lookup (d : Deltas) (a : Hash256) :
    d.tokens.lookup a = if a ≠ 0 ∧ d.get a ≠ 0 then some (d.get a) else none := by
  have hfilter : d.tokens =
      insertAll ∅ ((pairs d).filter fun e => !e.1.isZero && e.2 != 0) := by
    rw [insertAll, List.foldl_filter, tokens]
  have hnd : (((pairs d).filter fun e => !e.1.isZero && e.2 != 0).map Prod.fst).Nodup :=
    (pairs_nodup d).sublist (List.filter_sublist.map _)
  have hfn : d.tokens.lookup a = updateAll (fn ∅)
      ((pairs d).filter fun e => !e.1.isZero && e.2 != 0) a := by
    rw [hfilter, ← fn_insertAll]
    rfl
  rw [hfn]
  cases hl : d.lookup a with
  | none =>
      have hget : d.get a = 0 := by rw [get, hl]; rfl
      rw [if_neg (by simp [hget]), updateAll_of_notMem]
      · exact AList.lookup_empty a
      · intro hm
        obtain ⟨e, he, rfl⟩ := List.mem_map.mp hm
        have := mem_pairs.mp (List.mem_of_mem_filter he : (e.1, e.2) ∈ pairs d)
        rw [hl] at this
        cases this
  | some v =>
      have hget : d.get a = v := by rw [get, hl]; rfl
      rw [hget]
      split
      · next h =>
          refine updateAll_of_mem _ hnd (List.mem_filter.mpr ⟨mem_pairs.mpr hl, ?_⟩)
          have hz : a.isZero = false := by
            rw [Hash256.isZero, beq_eq_false_iff_ne]
            exact h.1
          simp [hz, h.2]
      · next h =>
          rw [updateAll_of_notMem]
          · exact AList.lookup_empty a
          · intro hm
            obtain ⟨e, he, rfl⟩ := List.mem_map.mp hm
            obtain ⟨hmem, hp⟩ := List.mem_filter.mp he
            have hv := mem_pairs.mp (hmem : (e.1, e.2) ∈ pairs d)
            rw [hl, Option.some.injEq] at hv
            simp only [Hash256.isZero, Bool.and_eq_true, Bool.not_eq_true', beq_eq_false_iff_ne,
              bne_iff_ne] at hp
            exact h ⟨hp.1, hv ▸ hp.2⟩

end Deltas

/-! ## Sums -/

/-- What an input that is found takes from an asset. -/
def inValue (coins : OutPoint → Option WalletCoin) (a : Hash256) (i : TxIn) : Int :=
  match coins i.prev with
  | none => 0
  | some c => if c.out.asset = a then int64 c.out.value else 0

/-- What an output that is ours brings. -/
def outValue (own : Nat → Bool) (a : Hash256) (o : TxOut × Nat) : Int :=
  if own o.2 then (if o.1.asset = a then int64 o.1.value else 0) else 0

theorem effectIn_delta (coins : OutPoint → Option WalletCoin) (a : Hash256) (ins : List TxIn)
    (e : TxEffect) : (ins.foldl (effectIn coins) e).delta.get a ≡
      e.delta.get a - (ins.map (inValue coins a)).sum [ZMOD 2 ^ 64] := by
  induction ins generalizing e with
  | nil => rw [List.map_nil, List.sum_nil, Int.sub_zero]; rfl
  | cons i ins ih =>
      have hstep : (effectIn coins e i).delta.get a ≡
          e.delta.get a - inValue coins a i [ZMOD 2 ^ 64] := by
        cases hc : coins i.prev with
        | none =>
            rw [effectIn, inValue, hc, Int.sub_zero]
        | some c =>
            rw [effectIn, inValue, hc]
            refine (Deltas.get_add_modEq _ _ _ _).trans ?_
            show _ ≡ _ - (if c.out.asset = a then _ else _) [ZMOD 2 ^ 64]
            split
            · rw [Int.sub_eq_add_neg]
            · rw [Int.add_zero, Int.sub_zero]
      rw [List.foldl_cons, List.map_cons, List.sum_cons, ← Int.sub_sub]
      exact (ih _).trans (hstep.sub_right _)

theorem effectOut_delta (text : Hash256 → Bytes) (own : Nat → Bool) (a : Hash256)
    (outs : List (TxOut × Nat)) (e : TxEffect) :
    (outs.foldl (effectOut text own) e).delta.get a ≡
      e.delta.get a + (outs.map (outValue own a)).sum [ZMOD 2 ^ 64] := by
  induction outs generalizing e with
  | nil => rw [List.map_nil, List.sum_nil, Int.add_zero]; rfl
  | cons o outs ih =>
      have hstep : (effectOut text own e o).delta.get a ≡
          e.delta.get a + outValue own a o [ZMOD 2 ^ 64] := by
        rw [effectOut, outValue]
        split
        · exact Deltas.get_add_modEq _ _ _ _
        · rw [Int.add_zero]
      rw [List.foldl_cons, List.map_cons, List.sum_cons, ← Int.add_assoc]
      exact (ih _).trans (hstep.add_right _)

/-- The amount recorded for an asset. -/
theorem txEffect_delta [Crypto] (text : Hash256 → Bytes) (own : Hash256 → Nat → Bool)
    (coins : OutPoint → Option WalletCoin) (tx : Transaction) (a : Hash256) :
    (txEffect text own coins tx).delta.get a ≡
      (tx.outs.zipIdx.map (outValue (own tx.txid) a)).sum -
        (tx.ins.map (inValue coins a)).sum [ZMOD 2 ^ 64] := by
  have hstart : ({ allOurs := !tx.isCoinbase } : TxEffect).delta.get a = 0 := by
    rw [Deltas.get, AList.lookup_empty]
    rfl
  have hins := effectIn_delta coins a tx.ins { allOurs := !tx.isCoinbase }
  rw [hstart, Int.zero_sub] at hins
  refine (effectOut_delta text (own tx.txid) a tx.outs.zipIdx _).trans
    ((hins.add_right _).trans ?_)
  rw [Int.add_comm, ← Int.sub_eq_add_neg]

end QuantCore
