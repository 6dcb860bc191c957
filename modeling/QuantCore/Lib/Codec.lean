import Mathlib.Data.List.Basic

/-!
# Readers that undo a writer

A byte format is written by concatenation and read by a state monad over the
remaining input. This file has the one judgement the two are compared with.

`Decodes r bs x` says what the reader `r` does in front of the bytes `bs` that
some writer produced for `x`: it hands back `x` and stops exactly at the end of
`bs`, whatever follows. The rules below put such facts together the way a
reader is put together, so that a format's round trip is read off its two
definitions field by field.

Nothing here knows what is being read: the input is a list over any alphabet
and the error type is any type.
-/

namespace QuantCore.Codec

universe u

variable {τ ε α β : Type u}

/-- A reader over a list of input symbols. -/
abbrev Reader (τ ε α : Type u) : Type u := StateT (List τ) (Except ε) α

/-- In front of `bs`, the reader `r` returns `x` and leaves what follows. -/
def Decodes (r : Reader τ ε α) (bs : List τ) (x : α) : Prop :=
  ∀ rest, r (bs ++ rest) = .ok (x, rest)

theorem Decodes.run {r : Reader τ ε α} {bs : List τ} {x : α}
    (h : Decodes r bs x) : r bs = .ok (x, []) := by
  have := h []
  rwa [List.append_nil] at this

theorem decodes_pure (x : α) : Decodes (pure x : Reader τ ε α) [] x :=
  fun _ => rfl

theorem Decodes.bind {r : Reader τ ε α} {f : α → Reader τ ε β}
    {b c : List τ} {x : α} {y : β} (hr : Decodes r b x)
    (hf : Decodes (f x) c y) : Decodes (r >>= f) (b ++ c) y := by
  intro rest
  rw [List.append_assoc]
  show (r (b ++ (c ++ rest)) >>= fun p => f p.1 p.2) = _
  rw [hr (c ++ rest)]
  exact hf rest

/-- The last field of a record: what is left to do writes nothing. -/
theorem Decodes.bind_pure {r : Reader τ ε α} {g : α → β} {bs : List τ} {x : α}
    (hr : Decodes r bs x) :
    Decodes (r >>= fun a => (pure (g a) : Reader τ ε β)) bs (g x) := by
  have h := hr.bind (f := fun a => (pure (g a) : Reader τ ε β))
    (decodes_pure (g x))
  rwa [List.append_nil] at h

/-- Read `n` items with one reader. -/
def readMany (r : Reader τ ε α) : Nat → Reader τ ε (List α)
  | 0 => pure []
  | n + 1 => do
      let x ← r
      let xs ← readMany r n
      pure (x :: xs)

/-- A list written item by item is read back item by item. -/
theorem decodes_readMany {r : Reader τ ε α} {w : α → List τ} {xs : List α}
    (h : ∀ x ∈ xs, Decodes r (w x) x) :
    Decodes (readMany r xs.length) (xs.flatMap w) xs := by
  induction xs with
  | nil => exact decodes_pure []
  | cons x xs ih =>
      have hx := h x (List.mem_cons_self ..)
      have hxs := ih fun y hy => h y (List.mem_cons_of_mem x hy)
      rw [List.length_cons, readMany, List.flatMap_cons]
      exact hx.bind hxs.bind_pure

/-! ## The converse

A reader is canonical when what it accepts is what the writer would have
written: it consumes the encoding of its result and nothing else. So no two
inputs are read as one value. -/

/-- Whatever `r` reads is an encoding by `w`, of a value that meets `P`. -/
def Canonical (r : Reader τ ε α) (w : α → List τ) (P : α → Prop) : Prop :=
  ∀ bs x rest, r bs = .ok (x, rest) → bs = w x ++ rest ∧ P x

theorem bind_ok {r : Reader τ ε α} {f : α → Reader τ ε β} {bs rest : List τ} {y : β}
    (h : (r >>= f) bs = .ok (y, rest)) :
    ∃ x mid, r bs = .ok (x, mid) ∧ f x mid = .ok (y, rest) := by
  have hb : (r bs >>= fun p => f p.1 p.2) = .ok (y, rest) := h
  cases hr : r bs with
  | error e =>
      rw [hr] at hb
      cases hb
  | ok p =>
      rw [hr] at hb
      exact ⟨p.1, p.2, rfl, hb⟩

theorem pure_ok {x y : α} {bs rest : List τ}
    (h : (pure x : Reader τ ε α) bs = .ok (y, rest)) : y = x ∧ rest = bs := by
  cases h
  exact ⟨rfl, rfl⟩

/-- Two inputs read as one value with one rest are one input. -/
theorem Canonical.unique {r : Reader τ ε α} {w : α → List τ} {P : α → Prop}
    (h : Canonical r w P) {as bs rest : List τ} {x : α} (ha : r as = .ok (x, rest))
    (hb : r bs = .ok (x, rest)) : as = bs :=
  (h as x rest ha).1.trans (h bs x rest hb).1.symm

theorem canonical_readMany {r : Reader τ ε α} {w : α → List τ} {P : α → Prop}
    (h : Canonical r w P) (n : Nat) :
    Canonical (readMany r n) (fun xs => xs.flatMap w)
      fun xs => xs.length = n ∧ ∀ x ∈ xs, P x := by
  induction n with
  | zero =>
      intro bs xs rest hr
      obtain ⟨rfl, rfl⟩ := pure_ok hr
      exact ⟨rfl, rfl, fun x hx => absurd hx List.not_mem_nil⟩
  | succ n ih =>
      intro bs xs rest hr
      obtain ⟨x, mid, hx, hr⟩ := bind_ok hr
      obtain ⟨ys, mid', hys, hr⟩ := bind_ok hr
      obtain ⟨rfl, rfl⟩ := pure_ok hr
      obtain ⟨rfl, hP⟩ := h bs x mid hx
      obtain ⟨rfl, hlen, hPs⟩ := ih mid ys rest hys
      refine ⟨?_, by rw [List.length_cons, hlen], fun y hy => ?_⟩
      · show w x ++ (ys.flatMap w ++ rest) = (x :: ys).flatMap w ++ rest
        rw [List.flatMap_cons, List.append_assoc]
      rcases List.mem_cons.mp hy with rfl | hy
      · exact hP
      · exact hPs y hy

/-! ## Limits

A writer may know no limits where its reader has some. What is then read back is
known all the same: the value, if it keeps the limits, and an error otherwise. -/

/-- In front of `bs`, the reader `r` returns `x` if `p` holds and fails if not. -/
structure Judges (r : Reader τ ε α) (bs : List τ) (x : α) (p : Prop) : Prop where
  accepts : p → Decodes r bs x
  rejects : ¬ p → ∀ rest, ∃ e, r (bs ++ rest) = .error e

theorem Decodes.judges {r : Reader τ ε α} {bs : List τ} {x : α} (h : Decodes r bs x) :
    Judges r bs x True where
  accepts := fun _ => h
  rejects := fun hp => absurd trivial hp

theorem Judges.congr {r : Reader τ ε α} {bs : List τ} {x : α} {p q : Prop}
    (h : Judges r bs x p) (hpq : p ↔ q) : Judges r bs x q where
  accepts := fun hq => h.accepts (hpq.mpr hq)
  rejects := fun hq => h.rejects fun hp => hq (hpq.mp hp)

theorem Judges.bind {r : Reader τ ε α} {f : α → Reader τ ε β} {b c : List τ} {x : α} {y : β}
    {p q : Prop} (hr : Judges r b x p) (hf : Judges (f x) c y q) :
    Judges (r >>= f) (b ++ c) y (p ∧ q) where
  accepts := fun h => (hr.accepts h.1).bind (hf.accepts h.2)
  rejects := by
    intro h rest
    rw [List.append_assoc]
    show ∃ e, (r (b ++ (c ++ rest)) >>= fun z => f z.1 z.2) = .error e
    by_cases hp : p
    · rw [hr.accepts hp (c ++ rest)]
      exact hf.rejects (fun hq => h ⟨hp, hq⟩) rest
    · obtain ⟨e, he⟩ := hr.rejects hp (c ++ rest)
      exact ⟨e, by rw [he]; rfl⟩

/-- A field without a limit. -/
theorem Decodes.bind_judges {r : Reader τ ε α} {f : α → Reader τ ε β} {b c : List τ} {x : α}
    {y : β} {q : Prop} (hr : Decodes r b x) (hf : Judges (f x) c y q) :
    Judges (r >>= f) (b ++ c) y q :=
  (hr.judges.bind hf).congr ⟨fun h => h.2, fun h => ⟨trivial, h⟩⟩

/-- The last field of a record. -/
theorem Judges.bind_pure {r : Reader τ ε α} {g : α → β} {bs : List τ} {x : α} {p : Prop}
    (hr : Judges r bs x p) :
    Judges (r >>= fun a => (pure (g a) : Reader τ ε β)) bs (g x) p := by
  have h := hr.bind (f := fun a => (pure (g a) : Reader τ ε β)) (decodes_pure (g x)).judges
  rw [List.append_nil] at h
  exact h.congr ⟨fun h => h.1, fun h => ⟨h, trivial⟩⟩

/-- A list is read back if each of its items is. -/
theorem judges_readMany {γ : Type u} {r : Reader τ ε α} {w : γ → List τ} {g : γ → α}
    {p : γ → Prop} {xs : List γ} (h : ∀ x ∈ xs, Judges r (w x) (g x) (p x)) :
    Judges (readMany r xs.length) (xs.flatMap w) (xs.map g) (∀ x ∈ xs, p x) := by
  induction xs with
  | nil =>
      exact (decodes_pure []).judges.congr
        ⟨fun _ _ h => absurd h List.not_mem_nil, fun _ => trivial⟩
  | cons x xs ih =>
      rw [List.forall_mem_cons] at h
      rw [List.length_cons, readMany, List.flatMap_cons, List.map_cons]
      exact (h.1.bind (ih h.2).bind_pure).congr List.forall_mem_cons.symm

end QuantCore.Codec
