import Mathlib.Algebra.Order.BigOperators.Group.List
import Mathlib.Algebra.Order.Group.Int
import Mathlib.Algebra.Ring.Int.Defs
import QuantCore.Lib.Maps

/-!
# What a finite partial function weighs

Where a quantity is spread over the entries of a partial function, each with a
weight of its own, what they weigh together is a number that the partial
function determines. One update moves it by the weight of the entry that comes
less the weight of the one that goes, so a total is followed through a program
one write at a time, without summing again.
-/

namespace QuantCore.Totals

open Maps

variable {κ ν : Type} [DecidableEq κ]

/-- `f` has finitely many entries, and together they weigh `n`. -/
def Weighs (w : κ → ν → Int) (f : κ → Option ν) (n : Int) : Prop :=
  ∃ m : Map κ ν, fn m = f ∧ n = ((pairs m).map fun e => w e.1 e.2).sum

theorem weighs_map (w : κ → ν → Int) (m : Map κ ν) :
    Weighs w (fn m) ((pairs m).map fun e => w e.1 e.2).sum :=
  ⟨m, rfl, rfl⟩

theorem weighs_empty (w : κ → ν → Int) : Weighs w (fun _ => none) 0 :=
  ⟨∅, fn_empty, rfl⟩

namespace Weighs

variable {w u : κ → ν → Int} {f : κ → Option ν} {n n' : Int} {k : κ} {v : ν}

theorem unique (h : Weighs w f n) (h' : Weighs w f n') : n = n' := by
  obtain ⟨m, hm, rfl⟩ := h
  obtain ⟨m', hm', rfl⟩ := h'
  exact ((pairs_perm (hm.trans hm'.symm)).map _).sum_eq

/-- Only the weights of entries that are there matter. -/
theorem congr (h : Weighs w f n) (hw : ∀ k v, f k = some v → w k v = u k v) :
    Weighs u f n := by
  obtain ⟨m, rfl, rfl⟩ := h
  refine ⟨m, rfl, congrArg List.sum (List.map_congr_left fun e he => ?_)⟩
  exact hw e.1 e.2 (mem_pairs.mp he)

theorem nonneg (h : Weighs w f n) (hw : ∀ k v, f k = some v → 0 ≤ w k v) : 0 ≤ n := by
  obtain ⟨m, rfl, rfl⟩ := h
  refine List.sum_nonneg fun x hx => ?_
  obtain ⟨e, he, rfl⟩ := List.mem_map.mp hx
  exact hw e.1 e.2 (mem_pairs.mp he)

/-- No entry weighs more than all of them. -/
theorem single_le (h : Weighs w f n) (hw : ∀ k v, f k = some v → 0 ≤ w k v) (hk : f k = some v) :
    w k v ≤ n := by
  obtain ⟨m, rfl, rfl⟩ := h
  refine List.single_le_sum (fun x hx => ?_) _ (List.mem_map_of_mem (mem_pairs.mpr hk))
  obtain ⟨e, he, rfl⟩ := List.mem_map.mp hx
  exact hw e.1 e.2 (mem_pairs.mp he)

/-- Entries without weight. -/
theorem eq_zero (h : Weighs w f n) (hw : ∀ k v, f k = some v → w k v = 0) : n = 0 := by
  obtain ⟨m, rfl, rfl⟩ := h
  refine List.sum_eq_zero fun x hx => ?_
  obtain ⟨e, he, rfl⟩ := List.mem_map.mp hx
  exact hw e.1 e.2 (mem_pairs.mp he)

/-- A lighter weight comes to no more. -/
theorem lighter (h : Weighs w f n) (hw : ∀ k v, f k = some v → u k v ≤ w k v) :
    ∃ n' ≤ n, Weighs u f n' := by
  obtain ⟨m, rfl, rfl⟩ := h
  refine ⟨_, List.sum_le_sum fun e he => ?_, weighs_map u m⟩
  exact hw e.1 e.2 (mem_pairs.mp he)

/-- Two weights at once. -/
theorem add (h : Weighs w f n) (h' : Weighs u f n') :
    Weighs (fun k v => w k v + u k v) f (n + n') := by
  obtain ⟨m, rfl, rfl⟩ := h
  rw [h'.unique (weighs_map u m), ← List.sum_map_add]
  exact weighs_map (fun k v => w k v + u k v) m

/-- Where one key alone has any weight. -/
theorem at_key (h : Weighs w f n) (k : κ) (hw : ∀ x v, f x = some v → x ≠ k → w x v = 0) :
    n = (f k).elim 0 (w k) := by
  have hone : Weighs (fun x v => if x = k then w k v else 0) f n := by
    refine h.congr fun x v hx => ?_
    split
    · next he => rw [he]
    · next hne => exact hw x v hx hne
  obtain ⟨m, rfl, rfl⟩ := hone
  have hsum := sum_pairs_at m (w k) k
  rw [show fn m k = m.lookup k from rfl]
  cases hk : m.lookup k with
  | none => rwa [hk] at hsum
  | some v => rwa [hk] at hsum

/-! ## Updates -/

/-- A new entry. -/
theorem insert (h : Weighs w f n) (hk : f k = none) (v : ν) :
    Weighs w (Function.update f k (some v)) (n + w k v) := by
  obtain ⟨m, rfl, rfl⟩ := h
  refine ⟨m.insert k v, fn_insert m k v, ?_⟩
  have hpairs : pairs (m.insert k v) = (k, v) :: pairs m := by
    rw [pairs, AList.entries_insert_of_notMem (AList.lookup_eq_none.mp hk), List.map_cons]
    rfl
  rw [hpairs, List.map_cons, List.sum_cons, Int.add_comm]

/-- An entry that goes. -/
theorem erase (h : Weighs w f n) (hk : f k = some v) :
    Weighs w (Function.update f k none) (n - w k v) := by
  obtain ⟨m, rfl, rfl⟩ := h
  have hless := weighs_map w (m.erase k)
  have hback := hless.insert (k := k) (v := v) (AList.lookup_erase k m)
  rw [fn_erase, Function.update_idem, Function.update_eq_self_iff.mpr hk.symm] at hback
  rw [fn_erase] at hless
  rw [(weighs_map w m).unique hback, Int.add_sub_cancel]
  exact hless

/-- An entry in place of what was there. -/
theorem put (h : Weighs w f n) (k : κ) (v : ν) :
    Weighs w (Function.update f k (some v)) (n - (f k).elim 0 (w k) + w k v) := by
  cases hk : f k with
  | none =>
      rw [Option.elim_none, Int.sub_zero]
      exact h.insert hk v
  | some old =>
      have hput := (h.erase hk).insert (k := k) (v := v) (Function.update_self ..)
      rwa [Function.update_idem] at hput

end Weighs

end QuantCore.Totals
