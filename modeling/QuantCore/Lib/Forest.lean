import Mathlib.Data.List.Chain

/-!
# Forests of parent pointers

A partial function `parent` in which every step up lowers a rank by one. `up n`
takes `n` steps; ancestors of one node are ordered by the number of steps, so a
node has one ancestor of each rank. A `Path` is a list in which every element is
the parent of the next, oldest first: it is the list of all ancestors of its
last element down to its first.
-/

namespace QuantCore.Forest

variable {α : Type} {parent : α → Option α} {rank : α → Nat}

/-- `n` steps towards the root. -/
def up (parent : α → Option α) : Nat → α → Option α
  | 0, a => some a
  | n + 1, a => (parent a).bind (up parent n)

theorem up_add (m n : Nat) (a : α) :
    up parent (m + n) a = (up parent m a).bind (up parent n) := by
  induction m generalizing a with
  | zero => rw [Nat.zero_add, up, Option.bind_some]
  | succ m ih =>
      rw [Nat.add_right_comm, up, up]
      cases parent a with
      | none => rfl
      | some p => exact ih p

theorem up_succ (n : Nat) (a : α) :
    up parent (n + 1) a = (up parent n a).bind parent := by
  rw [up_add]
  congr 1
  funext b
  rw [up]
  cases parent b <;> rfl

/-- Further up, seen from an ancestor on the way. -/
theorem up_sub {m n : Nat} {a b : α} (h : up parent m a = some b) (hmn : m ≤ n) :
    up parent n a = up parent (n - m) b := by
  have hn : n = m + (n - m) := by omega
  rw [hn, up_add, h, Option.bind_some, Nat.add_sub_cancel_left]

/-- `b` is `a` or above it. -/
def Above (parent : α → Option α) (b a : α) : Prop := ∃ n, up parent n a = some b

theorem Above.refl (a : α) : Above parent a a := ⟨0, rfl⟩

theorem Above.trans {a b c : α} (hcb : Above parent c b) (hba : Above parent b a) :
    Above parent c a := by
  obtain ⟨m, hm⟩ := hba
  obtain ⟨n, hn⟩ := hcb
  refine ⟨m + n, ?_⟩
  rw [up_add, hm]
  exact hn

/-- Above a node are the node itself and what is above its parent. -/
theorem Above.cases {a b : α} (h : Above parent b a) :
    b = a ∨ ∃ p, parent a = some p ∧ Above parent b p := by
  obtain ⟨n, hn⟩ := h
  cases n with
  | zero =>
      rw [up, Option.some.injEq] at hn
      exact .inl hn.symm
  | succ n =>
      rw [up] at hn
      obtain ⟨p, hp, hb⟩ := Option.bind_eq_some_iff.mp hn
      exact .inr ⟨p, hp, n, hb⟩

theorem above_parent {a p : α} (h : parent a = some p) : Above parent p a :=
  ⟨1, by rw [up, h]; rfl⟩

/-! ## Ranks -/

/-- Every step up lowers the rank by one. -/
def Ranked (parent : α → Option α) (rank : α → Nat) : Prop :=
  ∀ a p, parent a = some p → rank a = rank p + 1

theorem Ranked.rank_up (hr : Ranked parent rank) {n : Nat} {a b : α}
    (h : up parent n a = some b) : rank a = rank b + n := by
  induction n generalizing a with
  | zero =>
      cases h
      rfl
  | succ n ih =>
      rw [up] at h
      cases hp : parent a with
      | none =>
          rw [hp] at h
          cases h
      | some p =>
          rw [hp] at h
          have h1 := hr a p hp
          have h2 := ih h
          omega

/-- Two ancestors of one node: the one of the higher rank is below the other. -/
theorem Ranked.above_of_above (hr : Ranked parent rank) {a b c : α}
    (hb : Above parent b a) (hc : Above parent c a) (h : rank b ≤ rank c) :
    Above parent b c := by
  obtain ⟨m, hm⟩ := hb
  obtain ⟨n, hn⟩ := hc
  have hmr := hr.rank_up hm
  have hnr := hr.rank_up hn
  refine ⟨m - n, ?_⟩
  rw [← up_sub hn (by omega)]
  exact hm

/-! ## Paths -/

/-- Oldest first, each the parent of the next. -/
def Path (parent : α → Option α) (l : List α) : Prop :=
  List.IsChain (fun p c => parent c = some p) l

theorem path_singleton (a : α) : Path parent [a] := List.IsChain.singleton a

theorem Path.dropLast {l : List α} (h : Path parent l) : Path parent l.dropLast :=
  List.IsChain.dropLast h

/-- A path can be extended by a child of its end. -/
theorem Path.snoc {l : List α} {a c : α} (h : Path parent (l ++ [a]))
    (hc : parent c = some a) : Path parent (l ++ [a] ++ [c]) := by
  refine List.isChain_append.mpr ⟨h, List.IsChain.singleton c, ?_⟩
  intro x hx y hy
  rw [List.getLast?_concat] at hx
  cases hx
  cases hy
  exact hc

/-- The element at a place is as many steps up from the end as there are
elements after it. -/
theorem Path.up_getLast {l : List α} {t : α} (h : Path parent (l ++ [t])) {i : Nat}
    (hi : i ≤ l.length) : up parent (l.length - i) t = (l ++ [t])[i]? := by
  induction l using List.reverseRecOn generalizing t i with
  | nil =>
      have h0 : i = 0 := Nat.le_zero.mp hi
      subst h0
      rfl
  | append_singleton l x ih =>
      have hx : parent t = some x := by
        have h2 := (List.isChain_append.mp h).2.2 x (List.getLast?_concat ..) t rfl
        exact h2
      have hpre : Path parent (l ++ [x]) := List.IsChain.left_of_append h
      rw [List.length_append, List.length_singleton] at hi ⊢
      by_cases hlast : i = l.length + 1
      · rw [hlast, Nat.sub_self, up]
        rw [List.getElem?_append_right (by simp)]
        simp
      · have hsub : l.length + 1 - i = l.length - i + 1 := by omega
        have hlt : i < (l ++ [x]).length := by
          rw [List.length_append, List.length_singleton]
          omega
        rw [hsub, up, hx, Option.bind_some, ih hpre (by omega)]
        exact (List.getElem?_append_left hlt).symm

theorem Path.above_of_mem {l : List α} {a t : α} (h : Path parent (l ++ [t]))
    (ha : a ∈ l ++ [t]) : Above parent a t := by
  obtain ⟨i, hi⟩ := List.getElem?_of_mem ha
  have hlt := (List.getElem?_eq_some_iff.mp hi).1
  rw [List.length_append, List.length_singleton] at hlt
  exact ⟨l.length - i, (h.up_getLast (by omega)).trans hi⟩

/-- On a path from a root of rank zero the place is the rank. -/
theorem Path.rank_getElem (hr : Ranked parent rank) {l : List α} (h : Path parent l)
    {g : α} (hg : l.head? = some g) (h0 : rank g = 0) {i : Nat} {a : α}
    (ha : l[i]? = some a) : rank a = i := by
  induction i generalizing a with
  | zero =>
      rw [← List.head?_eq_getElem?, hg] at ha
      cases ha
      exact h0
  | succ i ih =>
      have hlt := (List.getElem?_eq_some_iff.mp ha).1
      have hp := List.isChain_iff_getElem.mp h i (by omega)
      have hi := ih (List.getElem?_eq_getElem (by omega))
      have hget := (List.getElem?_eq_some_iff.mp ha).2
      rw [hget] at hp
      rw [hr _ _ hp, hi]

end QuantCore.Forest
