import Mathlib.Data.List.Infix

/-!
# Searching

The first place at which a pattern stands in a text. More text behind does not
move it.
-/

namespace Search

variable {β : Type} [DecidableEq β]

/-- The first place of a pattern in a text. -/
def find (pat : List β) : List β → Option Nat
  | [] => if pat = [] then some 0 else none
  | c :: s => if pat <+: c :: s then some 0 else (find pat s).map (· + 1)

variable {pat s : List β} {i : Nat}

theorem find_some (h : find pat s = some i) : s = s.take i ++ pat ++ s.drop (i + pat.length) := by
  induction s generalizing i with
  | nil =>
      rw [find] at h
      split at h
      · next he =>
          cases h
          rw [he]
          rfl
      · cases h
  | cons c s ih =>
      rw [find] at h
      split at h
      · next hpre =>
          cases h
          obtain ⟨t, ht⟩ := hpre
          rw [← ht, List.take_zero, List.nil_append, Nat.zero_add, List.drop_left]
      · obtain ⟨j, hj, rfl⟩ := Option.map_eq_some_iff.mp h
        have htail := ih hj
        rw [List.take_succ_cons, List.cons_append, List.cons_append,
          show j + 1 + pat.length = j + pat.length + 1 by omega, List.drop_succ_cons, ← htail]

theorem find_length (h : find pat s = some i) : i + pat.length ≤ s.length := by
  induction s generalizing i with
  | nil =>
      rw [find] at h
      split at h
      · next he =>
          cases h
          rw [he]
          exact Nat.le_refl 0
      · cases h
  | cons c s ih =>
      rw [find] at h
      split at h
      · next hpre =>
          cases h
          rw [Nat.zero_add]
          exact hpre.length_le
      · obtain ⟨j, hj, rfl⟩ := Option.map_eq_some_iff.mp h
        have hlen := ih hj
        rw [List.length_cons]
        omega

/-- The first place stays when the text goes on. -/
theorem find_append (h : find pat s = some i) (t : List β) : find pat (s ++ t) = some i := by
  induction s generalizing i with
  | nil =>
      rw [find] at h
      split at h
      · next he =>
          cases h
          rw [he]
          cases t with
          | nil => rfl
          | cons c t =>
              rw [List.nil_append, find, if_pos (List.nil_prefix)]
      · cases h
  | cons c s ih =>
      rw [List.cons_append, find]
      have hlen := find_length h
      rw [find] at h
      split at h
      · next hpre =>
          cases h
          have hp : pat <+: c :: (s ++ t) := hpre.trans (List.prefix_append (c :: s) t)
          rw [if_pos hp]
      · next hpre =>
          obtain ⟨j, hj, rfl⟩ := Option.map_eq_some_iff.mp h
          have hno : ¬ pat <+: c :: (s ++ t) := fun hp =>
            hpre (List.prefix_of_prefix_length_le hp (List.prefix_append (c :: s) t) (by omega))
          rw [if_neg hno, ih hj, Option.map_some]

end Search
