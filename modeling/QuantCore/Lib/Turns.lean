import Mathlib.Data.List.Nodup
import Mathlib.Data.Option.Basic

/-!
# Taking what can be taken, in turn

A list of actions is tried in order on a state; an action that is refused is
passed over. Each action names cells of the state, is decided by what they hold,
and changes no others. So of two orders of the same actions only the order of
those that share a cell matters: what is taken in one list is taken in another,
whatever else is in there, if nothing that shares a cell with it has come before
it there and not here.

Two actions may be the same thing asked for in two ways, the stricter way after
the other; they have one key.
-/

namespace QuantCore.Turns

variable {σ α κ γ β : Type*}

/-- The actions that are taken. -/
def taken (step : α → σ → Option σ) : List α → σ → List α
  | [], _ => []
  | a :: l, s =>
      match step a s with
      | none => taken step l s
      | some s' => a :: taken step l s'

/-- The state after all have been tried. -/
def run (step : α → σ → Option σ) (l : List α) (s : σ) : σ :=
  l.foldl (fun s a => (step a s).getD s) s

/-- A step is decided by the cells it names and changes no others. -/
structure Local (held : σ → κ → γ) (cells : α → List κ) (step : α → σ → Option σ) : Prop where
  frame : ∀ {a s s'}, step a s = some s' → ∀ k, k ∉ cells a → held s' k = held s k
  agree : ∀ {a s t}, (∀ k ∈ cells a, held s k = held t k) →
    Option.Rel (fun s' t' => ∀ k ∈ cells a, held s' k = held t' k) (step a s) (step a t)

/-- Two actions share a cell. -/
def Touch (cells : α → List κ) (a b : α) : Prop := ∃ k, k ∈ cells a ∧ k ∈ cells b

/-- `a` comes before `b` somewhere in the list. -/
def Before (l : List α) (a b : α) : Prop := [a, b].Sublist l

instance [DecidableEq κ] (cells : α → List κ) (a b : α) : Decidable (Touch cells a b) :=
  inferInstanceAs (Decidable (∃ k, k ∈ cells a ∧ k ∈ cells b))

instance [DecidableEq α] (l : List α) (a b : α) : Decidable (Before l a b) :=
  inferInstanceAs (Decidable ([a, b].Sublist l))

theorem Before.cons {l : List α} {a b : α} (h : Before l a b) (c : α) : Before (c :: l) a b :=
  List.Sublist.cons c h

theorem before_head {l : List α} {a b : α} (h : b ∈ l) : Before (a :: l) a b :=
  (List.singleton_sublist.mpr h).cons_cons a

theorem Before.of_cons {l : List α} {a b c : α} (h : Before (c :: l) a b) (hne : a ≠ c) :
    Before l a b := by
  rcases List.sublist_cons_iff.mp h with h | ⟨r, hr, -⟩
  · exact h
  · rw [List.cons.injEq] at hr
    exact absurd hr.1 hne

theorem Before.mem_right {l : List α} {a b : α} (h : Before l a b) : b ∈ l :=
  h.subset (List.mem_cons_of_mem a List.mem_cons_self)

variable {held : σ → κ → γ} {cells : α → List κ} {step : α → σ → Option σ} {key : α → β}
  {a b r x : α} {s s' t : σ} {l : List α}

theorem mem_of_mem_taken (h : x ∈ taken step l s) : x ∈ l := by
  induction l generalizing s with
  | nil => exact absurd h List.not_mem_nil
  | cons a l ih =>
      rw [taken] at h
      split at h
      · exact List.mem_cons_of_mem a (ih h)
      · rcases List.mem_cons.mp h with rfl | h
        · exact List.mem_cons_self
        · exact List.mem_cons_of_mem a (ih h)

theorem taken_none (h : step a s = none) : taken step (a :: l) s = taken step l s := by
  rw [taken, h]

theorem taken_some (h : step a s = some s') : taken step (a :: l) s = a :: taken step l s' := by
  rw [taken, h]

theorem run_cons (step : α → σ → Option σ) (a : α) (l : List α) (s : σ) :
    run step (a :: l) s = run step l ((step a s).getD s) := rfl

theorem run_append (step : α → σ → Option σ) (l r : List α) (s : σ) :
    run step (l ++ r) s = run step r (run step l s) := List.foldl_append

/-- What is refused in every state may be left out. -/
theorem taken_filter {p : α → Bool} (h : ∀ a ∈ l, p a = false → ∀ s, step a s = none) :
    taken step (l.filter p) s = taken step l s := by
  induction l generalizing s with
  | nil => rfl
  | cons a l ih =>
      rw [List.forall_mem_cons] at h
      cases hp : p a with
      | false =>
          rw [List.filter_cons_of_neg (by simp [hp]), taken_none (h.1 hp s)]
          exact ih h.2
      | true =>
          rw [List.filter_cons_of_pos hp]
          cases hs : step a s with
          | none =>
              rw [taken_none hs, taken_none hs]
              exact ih h.2
          | some s' =>
              rw [taken_some hs, taken_some hs]
              exact congrArg (a :: ·) (ih h.2)

/-! ## States that hold the same -/

namespace Local

theorem none_of_agree (hl : Local held cells step) (h : ∀ k ∈ cells a, held s k = held t k)
    (hs : step a s = none) : step a t = none := by
  have hrel := hl.agree h
  rw [hs] at hrel
  cases ht : step a t with
  | none => rfl
  | some t' =>
      rw [ht] at hrel
      cases hrel

theorem some_of_agree (hl : Local held cells step) (h : ∀ k ∈ cells a, held s k = held t k)
    (hs : step a s = some s') :
    ∃ t', step a t = some t' ∧ ∀ k ∈ cells a, held s' k = held t' k := by
  have hrel := hl.agree h
  rw [hs] at hrel
  cases ht : step a t with
  | none =>
      rw [ht] at hrel
      cases hrel
  | some t' =>
      rw [ht] at hrel
      cases hrel with
      | some hk => exact ⟨t', rfl, hk⟩

/-- What is taken depends on what the cells hold only. -/
theorem taken_congr (hl : Local held cells step) (h : ∀ k, held s k = held t k) :
    taken step l s = taken step l t := by
  induction l generalizing s t with
  | nil => rfl
  | cons a l ih =>
      cases hs : step a s with
      | none =>
          rw [taken_none hs, taken_none (hl.none_of_agree (fun k _ => h k) hs)]
          exact ih h
      | some s' =>
          obtain ⟨t', ht, hk⟩ := hl.some_of_agree (fun k _ => h k) hs
          rw [taken_some hs, taken_some ht]
          refine congrArg (a :: ·) (ih fun k => ?_)
          by_cases hka : k ∈ cells a
          · exact hk k hka
          · rw [hl.frame hs k hka, hl.frame ht k hka]
            exact h k

/-- An action leaves what another one names as it is, if they are apart. -/
theorem apart (hl : Local held cells step) (h : ¬ Touch cells r a) (hs : step r s = some s') :
    ∀ k ∈ cells a, held s k = held s' k := by
  intro k hk
  refine (hl.frame hs k fun hr => ?_).symm
  exact h ⟨k, hr, hk⟩

/-- Two actions that are apart can be taken in either order. -/
theorem swap (hl : Local held cells step) (h : ¬ Touch cells r a) {s₁ s₂ : σ}
    (hr : step r s = some s₁) (ha : step a s = some s₂) :
    ∃ t₁ t₂, step a s₁ = some t₁ ∧ step r s₂ = some t₂ ∧ ∀ k, held t₁ k = held t₂ k := by
  have h' : ¬ Touch cells a r := fun ⟨k, hka, hkr⟩ => h ⟨k, hkr, hka⟩
  obtain ⟨t₁, ht₁, hk₁⟩ := hl.some_of_agree (hl.apart h hr) ha
  obtain ⟨t₂, ht₂, hk₂⟩ := hl.some_of_agree (hl.apart h' ha) hr
  refine ⟨t₁, t₂, ht₁, ht₂, fun k => ?_⟩
  by_cases hka : k ∈ cells a
  · have hkr : k ∉ cells r := fun hkr => h ⟨k, hkr, hka⟩
    rw [← hk₁ k hka, hl.frame ht₂ k hkr]
  · rw [hl.frame ht₁ k hka]
    by_cases hkr : k ∈ cells r
    · exact hk₂ k hkr
    · rw [hl.frame hr k hkr, hl.frame ht₂ k hkr, hl.frame ha k hka]

/-! ## To the front -/

variable [DecidableEq β]

/-- Actions of a key that is refused may be left out, if nothing that comes before
them touches them. -/
theorem taken_drop (hl : Local held cells step) {R : List α} {c : β}
    (hrefused : ∀ b ∈ R, key b = c → step b s = none)
    (happart : ∀ r b, Before R r b → key b = c → key r ≠ c → ¬ Touch cells r b) :
    taken step R s = taken step (R.filter fun r => key r ≠ c) s := by
  induction R generalizing s with
  | nil => rfl
  | cons r R ih =>
      have hrest : ∀ r b, Before R r b → key b = c → key r ≠ c → ¬ Touch cells r b :=
        fun r' b hb => happart r' b (hb.cons r)
      by_cases hr : key r = c
      · rw [taken_none (hrefused r List.mem_cons_self hr), List.filter_cons_of_neg (by simpa using hr)]
        exact ih (fun b hb => hrefused b (List.mem_cons_of_mem r hb)) hrest
      · rw [List.filter_cons_of_pos (by simpa using hr)]
        cases hs : step r s with
        | none =>
            rw [taken_none hs, taken_none hs]
            exact ih (fun b hb => hrefused b (List.mem_cons_of_mem r hb)) hrest
        | some s' =>
            rw [taken_some hs, taken_some hs]
            refine congrArg (r :: ·) (ih (fun b hb hbc => ?_) hrest)
            have hno := happart r b (before_head hb) hbc hr
            exact hl.none_of_agree (hl.apart hno hs) (hrefused b (List.mem_cons_of_mem r hb) hbc)

/-- An action that could be taken at once is taken in its turn, if nothing that
comes before it touches it, and the others are taken as if it had been. -/
theorem taken_front (hl : Local held cells step)
    (hdup : ∀ {a b : α} {s s' : σ}, step a s = some s' → key b = key a → step b s' = none)
    {R : List α} (ha : step a s = some s') (hmem : a ∈ R)
    (hfirst : ∀ r, Before R r a → key r = key a → r = a)
    (happart : ∀ r b, Before R r b → key b = key a → key r ≠ key a → ¬ Touch cells r b) :
    a ∈ taken step R s ∧
      ∀ x ∈ taken step (R.filter fun r => key r ≠ key a) s', x ∈ taken step R s := by
  induction R generalizing s s' with
  | nil => exact absurd hmem List.not_mem_nil
  | cons r R ih =>
      have hrest : ∀ r b, Before R r b → key b = key a → key r ≠ key a → ¬ Touch cells r b :=
        fun r' b hb => happart r' b (hb.cons r)
      by_cases hra : r = a
      · subst hra
        rw [taken_some ha, List.filter_cons_of_neg (by simp),
          ← hl.taken_drop (fun b _ hb => hdup ha hb) hrest]
        exact ⟨List.mem_cons_self, fun x hx => List.mem_cons_of_mem r hx⟩
      · have hmem : a ∈ R := (List.mem_cons.mp hmem).resolve_left fun h => hra h.symm
        have hkey : key r ≠ key a := fun hk => hra (hfirst r (before_head hmem) hk)
        have hno := happart r a (before_head hmem) rfl hkey
        have hfirst : ∀ r, Before R r a → key r = key a → r = a :=
          fun r' hr' => hfirst r' (hr'.cons r)
        rw [List.filter_cons_of_pos (by simpa using hkey)]
        cases hs : step r s with
        | none =>
            have hno' : ¬ Touch cells a r := fun ⟨k, hka, hkr⟩ => hno ⟨k, hkr, hka⟩
            rw [taken_none hs, taken_none (hl.none_of_agree (hl.apart hno' ha) hs)]
            exact ih ha hmem hfirst hrest
        | some s₁ =>
            obtain ⟨t₁, t₂, ht₁, ht₂, hsame⟩ := hl.swap hno hs ha
            obtain ⟨hin, hothers⟩ := ih ht₁ hmem hfirst hrest
            rw [taken_some hs, taken_some ht₂]
            refine ⟨List.mem_cons_of_mem r hin, fun x hx => ?_⟩
            rcases List.mem_cons.mp hx with rfl | hx
            · exact List.mem_cons_self
            · rw [← hl.taken_congr hsame] at hx
              exact List.mem_cons_of_mem r (hothers x hx)

/-! ## Another order -/

/-- What is taken in the order of `L` is taken in the order of `R`, if all of it is
there and whatever touches an action of `L` and comes before it in `R` comes before
it in `L`. -/
theorem taken_reordered (hl : Local held cells step)
    (hdup : ∀ {a b : α} {s s' : σ}, step a s = some s' → key b = key a → step b s' = none)
    {L R : List α} (hkeys : (L.map key).Nodup) (hin : ∀ x ∈ taken step L s, x ∈ R)
    (hfirst : ∀ a ∈ L, ∀ r, Before R r a → key r = key a → r = a)
    (hstrict : ∀ a ∈ L, ∀ r ∈ R, key r = key a → ∀ s, step a s = none → step r s = none)
    (horder : ∀ r b, Before R r b → key b ∈ L.map key → key r ≠ key b → Touch cells r b →
      Before (L.map key) (key r) (key b)) :
    ∀ x ∈ taken step L s, x ∈ taken step R s := by
  induction L generalizing R s with
  | nil => exact fun x hx => absurd hx List.not_mem_nil
  | cons a L ih =>
      rw [List.map_cons, List.nodup_cons] at hkeys
      -- nothing of another key comes before the first of `L` and touches it
      have happart : ∀ r b, Before R r b → key b = key a → key r ≠ key a →
          ¬ Touch cells r b := by
        intro r b hrb hb hr htouch
        have hbefore := horder r b hrb (hb ▸ List.mem_cons_self) (hb ▸ hr) htouch
        rw [List.map_cons, hb] at hbefore
        exact hkeys.1 (hbefore.of_cons hr).mem_right
      have hsub : ∀ {r b : α}, Before (R.filter fun r => key r ≠ key a) r b →
          Before R r b ∧ key r ≠ key a := by
        intro r b h
        have hr := h.subset List.mem_cons_self
        rw [List.mem_filter] at hr
        exact ⟨h.trans List.filter_sublist, of_decide_eq_true hr.2⟩
      have hnext : ∀ {s' : σ}, (∀ x ∈ taken step L s', x ∈ R) →
          ∀ x ∈ taken step L s', x ∈ taken step (R.filter fun r => key r ≠ key a) s' := by
        intro s' hin
        refine ih hkeys.2 (fun x hx => ?_) (fun c hc r hr => ?_) (fun c hc r hr => ?_) ?_
        · refine List.mem_filter.mpr ⟨hin x hx, decide_eq_true fun hk => hkeys.1 ?_⟩
          rw [← hk]
          exact List.mem_map_of_mem (mem_of_mem_taken hx)
        · exact hfirst c (List.mem_cons_of_mem a hc) r (hsub hr).1
        · exact hstrict c (List.mem_cons_of_mem a hc) r (List.mem_of_mem_filter hr)
        · intro r b hrb hb hne htouch
          obtain ⟨hrb, hr⟩ := hsub hrb
          exact (horder r b hrb (List.mem_cons_of_mem _ hb) hne htouch).of_cons hr
      cases hs : step a s with
      | none =>
          rw [taken_none hs] at hin ⊢
          rw [hl.taken_drop (fun b hb hk => hstrict a List.mem_cons_self b hb hk s hs) happart]
          exact hnext hin
      | some s' =>
          rw [taken_some hs, List.forall_mem_cons] at hin ⊢
          obtain ⟨ha, hothers⟩ := hl.taken_front hdup hs hin.1
            (hfirst a List.mem_cons_self) happart
          exact ⟨ha, fun x hx => hothers x (hnext hin.2 x hx)⟩

end Local

end QuantCore.Turns
