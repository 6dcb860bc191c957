/-!
# Loops that can throw

A loop over a list whose rounds go on, stop with a result or throw. It throws
exactly if it comes to an item that makes a round throw.
-/

namespace Loop

variable {σ α β ε : Type}

/-- What a round of a loop does. -/
inductive Round (σ β ε : Type) where
  | next (s : σ)
  | stop (b : β)
  | throw (e : ε)

/-- The loop from a state; `done` is the result when the list is at its end. -/
def run (step : σ → α → Round σ β ε) (done : σ → β) : σ → List α → Except ε β
  | s, [] => .ok (done s)
  | s, a :: as =>
      match step s a with
      | .next s => run step done s as
      | .stop b => .ok b
      | .throw e => .error e

/-- The loop over a list comes to an item in some state. -/
inductive Comes (step : σ → α → Round σ β ε) : σ → List α → σ → α → Prop
  | here (s : σ) (a : α) (as : List α) : Comes step s (a :: as) s a
  | later {s s' t : σ} {a b : α} {as : List α} (h : step s a = .next s')
      (hb : Comes step s' as t b) : Comes step s (a :: as) t b

variable {step : σ → α → Round σ β ε} {done : σ → β}

theorem run_throws {s : σ} {as : List α} : (∃ e, run step done s as = .error e) ↔
    ∃ t a e, Comes step s as t a ∧ step t a = .throw e := by
  induction as generalizing s with
  | nil =>
      constructor
      · rintro ⟨e, h⟩
        cases h
      · rintro ⟨t, a, e, h, -⟩
        cases h
  | cons a as ih =>
      rw [run]
      cases ha : step s a with
      | next s' =>
          refine ih.trans ⟨fun h => ?_, fun h => ?_⟩
          · obtain ⟨t, b, e, hb, he⟩ := h
            exact ⟨t, b, e, .later ha hb, he⟩
          · obtain ⟨t, b, e, hb, he⟩ := h
            cases hb with
            | here => cases ha.symm.trans he
            | later ha' hb =>
                cases ha.symm.trans ha'
                exact ⟨t, b, e, hb, he⟩
      | stop b =>
          refine iff_of_false (fun h => ?_) fun h => ?_
          · obtain ⟨e, he⟩ := h
            cases he
          · obtain ⟨t, b', e, hb, he⟩ := h
            cases hb with
            | here => cases ha.symm.trans he
            | later ha' hb => cases ha.symm.trans ha'
      | throw e =>
          exact iff_of_true ⟨e, rfl⟩ ⟨s, a, e, .here s a as, ha⟩

/-- A loop none of whose rounds throws returns. -/
theorem run_returns {s : σ} {as : List α} :
    (∃ b, run step done s as = .ok b) ↔ ∀ t a, Comes step s as t a → ∀ e, step t a ≠ .throw e := by
  constructor
  · rintro ⟨b, hb⟩ t a ha e he
    obtain ⟨e', he'⟩ := run_throws.mpr ⟨t, a, e, ha, he⟩
    cases hb.symm.trans he'
  · intro h
    cases hr : run step done s as with
    | ok b => exact ⟨b, rfl⟩
    | error e =>
        obtain ⟨t, a, e', ha, he⟩ := run_throws.mp ⟨e, hr⟩
        exact absurd he (h t a ha e')

end Loop
