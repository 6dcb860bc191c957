import Mathlib.Algebra.BigOperators.Group.List.Basic
import Mathlib.Data.List.AList
import Mathlib.Logic.Function.Basic

/-!
# Association lists as partial functions

An `AList` is a finite map that keeps an order of iteration. Everything below
says what an operation does to the partial function `lookup` and nothing about
the order: a loop over one map that writes into another is a loop of function
updates, and a loop over all entries of a map adds up to one override.
-/

namespace QuantCore.Maps

variable {κ ν : Type} [DecidableEq κ]

abbrev Map (κ ν : Type) := AList fun _ : κ => ν

/-- The partial function a map denotes. -/
def fn (m : Map κ ν) : κ → Option ν := fun k => m.lookup k

theorem fn_empty : fn (∅ : Map κ ν) = fun _ => none :=
  funext fun k => AList.lookup_empty k

theorem fn_insert (m : Map κ ν) (k : κ) (v : ν) :
    fn (m.insert k v) = Function.update (fn m) k (some v) := by
  funext x
  by_cases h : x = k
  · subst h
    rw [Function.update_self]
    exact AList.lookup_insert m
  · rw [Function.update_of_ne h]
    exact AList.lookup_insert_ne h

theorem fn_erase (m : Map κ ν) (k : κ) :
    fn (m.erase k) = Function.update (fn m) k none := by
  funext x
  by_cases h : x = k
  · subst h
    rw [Function.update_self]
    exact AList.lookup_erase x m
  · rw [Function.update_of_ne h]
    exact AList.lookup_erase_ne h

theorem lookup_insert_ite (m : Map κ ν) (k x : κ) (v : ν) :
    (m.insert k v).lookup x = if x = k then some v else m.lookup x := by
  have h := congrFun (fn_insert m k v) x
  rwa [Function.update_apply] at h

theorem lookup_erase_ite (m : Map κ ν) (k x : κ) :
    (m.erase k).lookup x = if x = k then none else m.lookup x := by
  have h := congrFun (fn_erase m k) x
  rwa [Function.update_apply] at h

theorem mem_iff_exists {m : Map κ ν} {k : κ} : k ∈ m ↔ ∃ v, m.lookup k = some v := by
  rw [← AList.lookup_isSome, Option.isSome_iff_exists]

/-! ## Entries -/

omit [DecidableEq κ] in
/-- The entries of a map, in its order of iteration. -/
def pairs (m : Map κ ν) : List (κ × ν) := m.entries.map fun e => (e.1, e.2)

omit [DecidableEq κ] in
theorem pairs_fst (m : Map κ ν) : (pairs m).map Prod.fst = m.keys := by
  rw [pairs, List.map_map]
  rfl

omit [DecidableEq κ] in
theorem pairs_nodup (m : Map κ ν) : (pairs m |>.map Prod.fst).Nodup := by
  rw [pairs_fst]
  exact m.keys_nodup

theorem mem_pairs {m : Map κ ν} {k : κ} {v : ν} :
    (k, v) ∈ pairs m ↔ m.lookup k = some v := by
  rw [← Option.mem_def, AList.mem_lookup_iff, pairs, List.mem_map]
  constructor
  · rintro ⟨⟨a, b⟩, he, h⟩
    simp only [Prod.mk.injEq] at h
    obtain ⟨rfl, rfl⟩ := h
    exact he
  · intro h
    exact ⟨⟨k, v⟩, h, rfl⟩

theorem forall_mem_pairs {m : Map κ ν} {p : κ → ν → Prop} :
    (∀ e ∈ pairs m, p e.1 e.2) ↔ ∀ k v, m.lookup k = some v → p k v :=
  ⟨fun h k v hk => h (k, v) (mem_pairs.mpr hk), fun h e he => h e.1 e.2 (mem_pairs.mp he)⟩

/-! ## Loops over entries -/

/-- Write the pairs of a list, in order. -/
def insertAll (m : Map κ ν) (l : List (κ × ν)) : Map κ ν :=
  l.foldl (fun m e => m.insert e.1 e.2) m

/-- The same on partial functions. -/
def updateAll (f : κ → Option ν) (l : List (κ × ν)) : κ → Option ν :=
  l.foldl (fun f e => Function.update f e.1 (some e.2)) f

theorem fn_insertAll (m : Map κ ν) (l : List (κ × ν)) :
    fn (insertAll m l) = updateAll (fn m) l := by
  induction l generalizing m with
  | nil => rfl
  | cons e l ih =>
      rw [insertAll, updateAll, List.foldl_cons, List.foldl_cons, ← fn_insert]
      exact ih (m.insert e.1 e.2)

theorem updateAll_of_notMem {l : List (κ × ν)} {k : κ} (f : κ → Option ν)
    (h : k ∉ l.map Prod.fst) : updateAll f l k = f k := by
  induction l generalizing f with
  | nil => rfl
  | cons e l ih =>
      rw [List.map_cons, List.mem_cons, not_or] at h
      rw [updateAll, List.foldl_cons]
      exact (ih (Function.update f e.1 (some e.2)) h.2).trans
        (Function.update_of_ne h.1 ..)

theorem updateAll_of_mem {l : List (κ × ν)} {k : κ} {v : ν} (f : κ → Option ν)
    (hnd : (l.map Prod.fst).Nodup) (h : (k, v) ∈ l) : updateAll f l k = some v := by
  induction l generalizing f with
  | nil => cases h
  | cons e l ih =>
      rw [List.map_cons, List.nodup_cons] at hnd
      rw [updateAll, List.foldl_cons]
      rcases List.mem_cons.mp h with rfl | h
      · exact (updateAll_of_notMem (Function.update f k (some v)) hnd.1).trans
          (Function.update_self ..)
      · exact ih (Function.update f e.1 (some e.2)) hnd.2 h

/-- At a key it writes, a loop of updates forgets what was there. -/
theorem exists_updateAll_of_mem {l : List (κ × ν)} {k : κ} (h : k ∈ l.map Prod.fst) :
    ∃ v, ∀ f : κ → Option ν, updateAll f l k = some v := by
  induction l with
  | nil => cases h
  | cons e l ih =>
      by_cases hk : k ∈ l.map Prod.fst
      · obtain ⟨v, hv⟩ := ih hk
        exact ⟨v, fun f => hv (Function.update f e.1 (some e.2))⟩
      · rcases List.mem_cons.mp h with rfl | h
        · exact ⟨e.2, fun f => (updateAll_of_notMem _ hk).trans
            (Function.update_self ..)⟩
        · exact absurd h hk

/-- A loop of updates leaves at a key what it found or what it writes there. -/
theorem updateAll_congr {f g : κ → Option ν} {l : List (κ × ν)} {k : κ} (h : f k = g k) :
    updateAll f l k = updateAll g l k := by
  by_cases hk : k ∈ l.map Prod.fst
  · obtain ⟨x, hx⟩ := exists_updateAll_of_mem hk
    rw [hx f, hx g]
  · rw [updateAll_of_notMem f hk, updateAll_of_notMem g hk]
    exact h

theorem mem_of_mem_insertAll {m : Map κ ν} {l : List (κ × ν)} {k : κ}
    (h : k ∈ insertAll m l) : k ∈ l.map Prod.fst ∨ k ∈ m := by
  by_contra hn
  rw [not_or] at hn
  have hl : (insertAll m l).lookup k = m.lookup k := by
    have h1 := congrFun (fn_insertAll m l) k
    rwa [updateAll_of_notMem _ hn.1] at h1
  rw [← AList.lookup_isSome, hl, AList.lookup_isSome] at h
  exact hn.2 h

/-- What is found after writing a list was in the list, or there before. -/
theorem mem_of_updateAll {f : κ → Option ν} {l : List (κ × ν)} {k : κ} {v : ν}
    (h : updateAll f l k = some v) : (k, v) ∈ l ∨ f k = some v := by
  induction l generalizing f with
  | nil => exact Or.inr h
  | cons e l ih =>
      rcases ih h with hl | hf
      · exact Or.inl (List.mem_cons_of_mem e hl)
      · simp only [Function.update_apply] at hf
        split at hf
        · next hk =>
            cases hf
            exact Or.inl (hk ▸ List.mem_cons_self)
        · exact Or.inr hf

theorem mem_of_lookup_insertAll {m : Map κ ν} {l : List (κ × ν)} {k : κ} {v : ν}
    (h : (insertAll m l).lookup k = some v) : (k, v) ∈ l ∨ m.lookup k = some v := by
  have hfn : fn (insertAll m l) k = some v := h
  rw [fn_insertAll] at hfn
  exact mem_of_updateAll hfn

theorem updateAll_append (f : κ → Option ν) (l₁ l₂ : List (κ × ν)) :
    updateAll f (l₁ ++ l₂) = updateAll (updateAll f l₁) l₂ := by
  rw [updateAll, List.foldl_append]
  rfl

/-- All entries of a map at once: the map overrides the function. -/
theorem updateAll_pairs (f : κ → Option ν) (m : Map κ ν) (k : κ) :
    updateAll f (pairs m) k = (m.lookup k).or (f k) := by
  cases h : m.lookup k with
  | none =>
      rw [Option.none_or]
      apply updateAll_of_notMem
      rw [pairs_fst]
      exact AList.lookup_eq_none.mp h
  | some v =>
      rw [Option.some_or]
      exact updateAll_of_mem f (pairs_nodup m) (mem_pairs.mpr h)

/-! ## Sizes -/

theorem length_keys_insert_le (m : Map κ ν) (k : κ) (v : ν) :
    (m.insert k v).keys.length ≤ m.keys.length + 1 := by
  rw [AList.keys_insert, List.length_cons]
  exact Nat.succ_le_succ (List.length_erase_le ..)

theorem length_keys_insertAll_le (m : Map κ ν) (l : List (κ × ν)) :
    (insertAll m l).keys.length ≤ m.keys.length + l.length := by
  induction l generalizing m with
  | nil => exact Nat.le_refl _
  | cons e l ih =>
      have h := ih (m.insert e.1 e.2)
      have h₁ := length_keys_insert_le m e.1 e.2
      rw [List.length_cons]
      exact h.trans (by omega)

omit [DecidableEq κ] in
theorem pairs_length (m : Map κ ν) : (pairs m).length = m.keys.length := by
  rw [← pairs_fst, List.length_map]

/-! ## Totals -/

theorem pairs_perm {m m' : Map κ ν} (h : fn m = fn m') : (pairs m).Perm (pairs m') := by
  have hnd : ∀ m : Map κ ν, (pairs m).Nodup := fun m => (pairs_nodup m).of_map Prod.fst
  refine (List.perm_ext_iff_of_nodup (hnd m) (hnd m')).mpr fun e => ?_
  have he : m.lookup e.1 = m'.lookup e.1 := congrFun h e.1
  rw [show e = (e.1, e.2) from rfl, mem_pairs, mem_pairs, he]

section

variable {M : Type} [AddCommMonoid M]

omit [DecidableEq κ] in
/-- The sum of a quantity over the values of a map. -/
def total (f : ν → M) (m : Map κ ν) : M := ((pairs m).map fun e => f e.2).sum

/-- It depends on what the map denotes only. -/
theorem total_congr (f : ν → M) {m m' : Map κ ν} (h : fn m = fn m') :
    total f m = total f m' :=
  ((pairs_perm h).map _).sum_eq

theorem total_insert (f : ν → M) {m : Map κ ν} {k : κ} (h : k ∉ m) (v : ν) :
    total f (m.insert k v) = f v + total f m := by
  rw [total, pairs, AList.entries_insert_of_notMem h]
  rfl

theorem total_erase (f : ν → M) {m : Map κ ν} {k : κ} {v : ν} (h : m.lookup k = some v) :
    total f m = f v + total f (m.erase k) := by
  have he : fn m = fn ((m.erase k).insert k v) := by
    rw [fn_insert, fn_erase, Function.update_idem]
    exact (Function.update_eq_self_iff.mpr h.symm).symm
  rw [total_congr f he, total_insert f fun hk => (AList.mem_erase.mp hk).1 rfl]

theorem sum_off_key {l : List (κ × ν)} {g : ν → M} {k : κ} (h : k ∉ l.map Prod.fst) :
    (l.map fun e => if e.1 = k then g e.2 else 0).sum = 0 := by
  induction l with
  | nil => rfl
  | cons e l ih =>
      rw [List.map_cons, List.mem_cons, not_or] at h
      rw [List.map_cons, List.sum_cons, if_neg (Ne.symm h.1), zero_add, ih h.2]

/-- A sum over pairs of distinct keys that counts one key only. -/
theorem sum_at_key {l : List (κ × ν)} (hnd : (l.map Prod.fst).Nodup) (g : ν → M) {k : κ}
    {v : ν} (h : (k, v) ∈ l) : (l.map fun e => if e.1 = k then g e.2 else 0).sum = g v := by
  induction l with
  | nil => cases h
  | cons e l ih =>
      rw [List.map_cons, List.nodup_cons] at hnd
      rw [List.map_cons, List.sum_cons]
      rcases List.mem_cons.mp h with rfl | h
      · rw [if_pos rfl, sum_off_key fun hk => hnd.1 hk, add_zero]
      · have hne : e.1 ≠ k := fun he => hnd.1 (List.mem_map.mpr ⟨_, h, he.symm⟩)
        rw [if_neg hne, zero_add, ih hnd.2 h]

theorem sum_pairs_at (m : Map κ ν) (g : ν → M) (k : κ) :
    ((pairs m).map fun e => if e.1 = k then g e.2 else 0).sum =
      ((m.lookup k).map g).getD 0 := by
  cases h : m.lookup k with
  | some v => exact sum_at_key (pairs_nodup m) g (mem_pairs.mpr h)
  | none =>
      refine sum_off_key fun hk => ?_
      rw [pairs_fst, ← AList.mem_keys, ← AList.lookup_isSome, h] at hk
      cases hk

end

end QuantCore.Maps
