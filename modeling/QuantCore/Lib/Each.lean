import QuantCore.Lib.Codec

/-!
# Acting on items as they are read

A loop that reads an item, acts on it and only then reads the next has acted on
everything in front of an item it cannot read. What it leaves behind is a fold
over the items it read, and where the whole list can be read it is the fold over
that list.
-/

namespace QuantCore.Codec

universe u v

variable {τ ε α : Type u} {σ : Type v}

/-- Read `n` items and act on each before the next one is read. -/
def readEach (r : Reader τ ε α) (act : σ → α → σ) : Nat → σ → List τ → σ × Except ε (List τ)
  | 0, s, bs => (s, .ok bs)
  | n + 1, s, bs =>
      match r bs with
      | .error e => (s, .error e)
      | .ok (a, rest) => readEach r act n (act s a) rest

variable {r : Reader τ ε α} {act : σ → α → σ}

theorem readEach_fold (r : Reader τ ε α) (act : σ → α → σ) (n : Nat) (s : σ) (bs : List τ) :
    ∃ xs : List α, xs.length ≤ n ∧ (readEach r act n s bs).1 = xs.foldl act s := by
  induction n generalizing s bs with
  | zero => exact ⟨[], Nat.le_refl 0, rfl⟩
  | succ n ih =>
      rw [readEach]
      split
      · exact ⟨[], Nat.zero_le _, rfl⟩
      · next a rest _ =>
          obtain ⟨xs, hlen, hxs⟩ := ih (act s a) rest
          exact ⟨a :: xs, Nat.succ_le_succ hlen, hxs⟩

/-- What every action keeps, the loop keeps. -/
theorem readEach_keeps {P : σ → Prop} (hact : ∀ s a, P s → P (act s a)) {s : σ} (h : P s)
    (n : Nat) (bs : List τ) : P (readEach r act n s bs).1 := by
  obtain ⟨xs, -, hxs⟩ := readEach_fold r act n s bs
  rw [hxs]
  exact List.foldlRecOn xs act h fun s hs a _ => hact s a hs

end QuantCore.Codec
