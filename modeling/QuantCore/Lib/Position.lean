import Mathlib.Data.List.Infix

/-!
# Positions in a text

What stands in a text from a position on. A parser that works on positions reads
a piece where it stands, and the next piece stands where that one ends.
-/

namespace Position

variable {α : Type} {s a b : List α} {p : Nat} {c : α}

/-- The text has the piece from the position on. -/
def Stands (s : List α) (p : Nat) (a : List α) : Prop := a <+: s.drop p

theorem stands_append (front a back : List α) : Stands (front ++ a ++ back) front.length a := by
  rw [Stands, List.append_assoc, List.drop_left]
  exact List.prefix_append a back

namespace Stands

theorem left (h : Stands s p (a ++ b)) : Stands s p a :=
  (List.prefix_append a b).trans h

theorem right (h : Stands s p (a ++ b)) : Stands s (p + a.length) b := by
  obtain ⟨t, ht⟩ := h
  refine ⟨t, ?_⟩
  rw [← List.drop_drop, ← ht, List.append_assoc, List.drop_left]

theorem tail (h : Stands s p (c :: a)) : Stands s (p + 1) a := right (a := [c]) h

theorem take (h : Stands s p a) : (s.drop p).take a.length = a :=
  (List.prefix_iff_eq_take.mp h).symm

theorem length_le (h : Stands s p a) (hp : p ≤ s.length) : p + a.length ≤ s.length := by
  have hlen := List.IsPrefix.length_le h
  rw [List.length_drop] at hlen
  omega

theorem lt_length (h : Stands s p (c :: a)) : p < s.length := by
  have hlen := List.IsPrefix.length_le h
  rw [List.length_drop, List.length_cons] at hlen
  omega

theorem getD (h : Stands s p (c :: a)) (d : α) : s.getD p d = c := by
  obtain ⟨t, ht⟩ := h
  rw [List.getD_eq_getElem?_getD, ← Nat.add_zero p, ← List.getElem?_drop, ← ht]
  rfl

/-- The first character of a kind is behind those that are not. -/
theorem findIdx? {q : α → Bool} (h : Stands s p (a ++ c :: b)) (ha : ∀ x ∈ a, q x = false)
    (hc : q c = true) : (s.drop p).findIdx? q = some a.length := by
  obtain ⟨t, ht⟩ := h
  have hnone : a.findIdx? q = none := List.findIdx?_eq_none_iff.mpr ha
  rw [← ht, List.append_assoc, List.findIdx?_append, hnone, List.cons_append, List.findIdx?_cons,
    if_pos hc, Option.none_or, Option.map_some, Nat.zero_add]

end Stands

end Position
