import Mathlib.Data.List.Sort
import Mathlib.Order.Defs.LinearOrder

/-!
# The median of a sliding window

A place in a sorted list is at least `v` exactly when enough entries of the list
are, which does not depend on their order. The upper median of a window that
takes in a new value no smaller than it, and at most loses its oldest, therefore
does not decrease, whether the window is still growing or already full.
-/

namespace Median

variable {α : Type} [LinearOrder α]

/-- How many entries are at least `v`. -/
def atLeast (v : α) (l : List α) : Nat := l.countP fun x => decide (v ≤ x)

theorem atLeast_le_length (v : α) (l : List α) : atLeast v l ≤ l.length := List.countP_le_length

theorem atLeast_cons_of_le {v x : α} (h : v ≤ x) (l : List α) :
    atLeast v (x :: l) = atLeast v l + 1 := List.countP_cons_of_pos (decide_eq_true h)

theorem atLeast_cons_of_lt {v x : α} (h : x < v) (l : List α) :
    atLeast v (x :: l) = atLeast v l :=
  List.countP_cons_of_neg fun hv => absurd (of_decide_eq_true hv) (not_le_of_gt h)

theorem atLeast_perm {v : α} {l l' : List α} (h : l.Perm l') : atLeast v l = atLeast v l' :=
  h.countP_eq _

/-- All entries of a sorted list reach what its first one reaches. -/
theorem atLeast_of_le {v : α} {l : List α} (h : ∀ x ∈ l, v ≤ x) : atLeast v l = l.length :=
  List.countP_eq_length.mpr fun x hx => decide_eq_true (h x hx)

theorem le_getElem_iff {v : α} {l : List α} (hs : l.Pairwise (· ≤ ·)) {i : Nat}
    (hi : i < l.length) : v ≤ l[i] ↔ l.length - i ≤ atLeast v l := by
  induction l generalizing i with
  | nil => cases hi
  | cons a t ih =>
      obtain ⟨hhead, htail⟩ := List.pairwise_cons.mp hs
      rcases le_or_gt v a with hle | hlt
      · -- The head reaches `v`, and with it every entry.
        have hall : ∀ x ∈ a :: t, v ≤ x := by
          intro x hx
          rcases List.mem_cons.mp hx with rfl | hx
          · exact hle
          · exact le_trans hle (hhead x hx)
        rw [atLeast_of_le hall]
        exact ⟨fun _ => Nat.sub_le _ _, fun _ => hall _ (List.getElem_mem hi)⟩
      · rw [atLeast_cons_of_lt hlt]
        cases i with
        | zero =>
            have hcount := atLeast_le_length v t
            rw [List.getElem_cons_zero, List.length_cons]
            exact ⟨fun h => absurd h (not_le_of_gt hlt), fun h => by omega⟩
        | succ i =>
            rw [List.getElem_cons_succ, List.length_cons, Nat.add_sub_add_right]
            exact ih htail (Nat.lt_of_succ_lt_succ hi)

/-- The element in the middle of the sorted list, the upper one of two. -/
def upper (d : α) (l : List α) : α := (l.insertionSort (· ≤ ·)).getD (l.length / 2) d

theorem le_upper_iff {d v : α} {l : List α} (hne : l ≠ []) :
    v ≤ upper d l ↔ l.length - l.length / 2 ≤ atLeast v l := by
  have hpos : 0 < l.length := List.length_pos_iff.mpr hne
  have hlen : (l.insertionSort (· ≤ ·)).length = l.length := List.length_insertionSort ..
  have hi : l.length / 2 < (l.insertionSort (· ≤ ·)).length := by
    rw [hlen]
    omega
  rw [upper, List.getD_eq_getElem?_getD, List.getElem?_eq_getElem hi, Option.getD_some,
    le_getElem_iff (List.pairwise_insertionSort ..) hi, hlen,
    atLeast_perm (List.perm_insertionSort ..)]

theorem upper_mem {d : α} {l : List α} (hne : l ≠ []) : upper d l ∈ l := by
  have hpos : 0 < l.length := List.length_pos_iff.mpr hne
  have hi : l.length / 2 < (l.insertionSort (· ≤ ·)).length := by
    rw [List.length_insertionSort]
    omega
  rw [upper, List.getD_eq_getElem?_getD, List.getElem?_eq_getElem hi, Option.getD_some]
  exact (List.perm_insertionSort ..).subset (List.getElem_mem hi)

/-- Dropping entries loses at most as many that reach `v`. -/
theorem atLeast_take (v : α) (l : List α) (k : Nat) :
    atLeast v l ≤ atLeast v (l.take k) + (l.length - k) := by
  have hsplit : atLeast v l = atLeast v (l.take k) + atLeast v (l.drop k) := by
    rw [atLeast, atLeast, atLeast, ← List.countP_append, List.take_append_drop]
  have hdrop := atLeast_le_length v (l.drop k)
  rw [List.length_drop] at hdrop
  omega

/-- A window of `k + 1` values, newest first, takes in `x`. -/
theorem upper_le_slide {d x : α} {l : List α} {k : Nat} (hne : l ≠ []) (hk : l.length ≤ k + 1)
    (hx : upper d l ≤ x) : upper d l ≤ upper d (x :: l.take k) := by
  have hold := (le_upper_iff (d := d) hne).mp (le_refl (upper d l))
  have htake := atLeast_take (upper d l) l k
  rw [le_upper_iff (List.cons_ne_nil _ _), atLeast_cons_of_le hx, List.length_cons,
    List.length_take]
  omega

end Median
