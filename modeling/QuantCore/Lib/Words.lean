import Mathlib.Data.List.Induction

/-!
# Words

A text is words with separators around them. Splitting forgets how many
separators there are and which; so texts that are alike but for that, and for a
folding of characters that respects the separators, split into the same folded
words.
-/

namespace Words

variable {β : Type}

/-- Read on, with the characters of a word that has begun. -/
def splitLoop (sep : β → Bool) : List β → List β → List (List β)
  | cur, [] => if cur.isEmpty then [] else [cur]
  | cur, c :: s =>
      if sep c then
        if cur.isEmpty then splitLoop sep [] s else cur :: splitLoop sep [] s
      else splitLoop sep (cur ++ [c]) s

/-- The words of a text, in order. -/
def split (sep : β → Bool) (s : List β) : List (List β) := splitLoop sep [] s

/-- Words with one separator between them. -/
def join (c : β) : List (List β) → List β
  | [] => []
  | w :: ws => w ++ ws.flatMap fun v => c :: v

/-- Not empty, and without separators. -/
def IsWord (sep : β → Bool) (w : List β) : Prop := w ≠ [] ∧ ∀ c ∈ w, sep c = false

variable {sep : β → Bool}

/-! ## Splitting -/

theorem splitLoop_word (cur w : List β) (hw : ∀ c ∈ w, sep c = false) (s : List β) :
    splitLoop sep cur (w ++ s) = splitLoop sep (cur ++ w) s := by
  induction w generalizing cur with
  | nil => rw [List.nil_append, List.append_nil]
  | cons c w ih =>
      have hc := hw c (List.mem_cons_self ..)
      rw [List.cons_append, splitLoop, hc, if_neg Bool.false_ne_true,
        ih _ fun x hx => hw x (List.mem_cons_of_mem c hx), List.append_assoc, List.singleton_append]

/-- A separator ends a word. -/
theorem splitLoop_sep (cur s : List β) {c : β} (hc : sep c = true) (t : List β) :
    splitLoop sep cur (s ++ c :: t) = splitLoop sep cur s ++ split sep t := by
  induction s generalizing cur with
  | nil =>
      rw [List.nil_append, splitLoop, splitLoop, if_pos hc]
      split <;> rfl
  | cons d s ih =>
      rw [List.cons_append, splitLoop, splitLoop]
      split
      · split
        · exact ih []
        · rw [ih [], List.cons_append]
      · exact ih (cur ++ [d])

theorem split_sep (s : List β) {c : β} (hc : sep c = true) (t : List β) :
    split sep (s ++ c :: t) = split sep s ++ split sep t := splitLoop_sep [] s hc t

theorem split_word {w : List β} (h : IsWord sep w) : split sep w = [w] := by
  have hrun := splitLoop_word [] w h.2 []
  rw [List.append_nil, List.nil_append] at hrun
  rw [split, hrun, splitLoop, if_neg (by rw [List.isEmpty_iff]; exact h.1)]

/-- Separators in front change nothing. -/
theorem split_front {u : List β} (hu : ∀ c ∈ u, sep c = true) (s : List β) :
    split sep (u ++ s) = split sep s := by
  induction u with
  | nil => rfl
  | cons c u ih =>
      have hrun := split_sep [] (hu c (List.mem_cons_self ..)) (u ++ s)
      rw [List.nil_append] at hrun
      rw [List.cons_append, hrun, ih fun x hx => hu x (List.mem_cons_of_mem c hx)]
      rfl

theorem split_back {u : List β} (hu : ∀ c ∈ u, sep c = true) (s : List β) :
    split sep (s ++ u) = split sep s := by
  cases u with
  | nil => rw [List.append_nil]
  | cons c u =>
      have hrest := split_front (fun x hx => hu x (List.mem_cons_of_mem c hx)) []
      rw [List.append_nil] at hrest
      rw [split_sep s (hu c (List.mem_cons_self ..)), hrest]
      exact List.append_nil _

/-- Between two words it does not matter which separators there are. -/
theorem split_gap {u v : List β} (hu : ∀ c ∈ u, sep c = true) (hv : ∀ c ∈ v, sep c = true)
    (hune : u ≠ []) (hvne : v ≠ []) (s t : List β) :
    split sep (s ++ (u ++ t)) = split sep (s ++ (v ++ t)) := by
  have hgap : ∀ {u : List β}, (∀ c ∈ u, sep c = true) → u ≠ [] →
      split sep (s ++ (u ++ t)) = split sep s ++ split sep t := by
    intro u hu hne
    cases u with
    | nil => exact absurd rfl hne
    | cons c u =>
        rw [List.cons_append, split_sep s (hu c (List.mem_cons_self ..)),
          split_front fun x hx => hu x (List.mem_cons_of_mem c hx)]
  rw [hgap hu hune, hgap hv hvne]

theorem splitLoop_isWord {cur s : List β} (hcur : ∀ c ∈ cur, sep c = false) :
    ∀ w ∈ splitLoop sep cur s, IsWord sep w := by
  induction s generalizing cur with
  | nil =>
      intro w hw
      rw [splitLoop] at hw
      split at hw
      · cases hw
      · next hne =>
          rw [List.mem_singleton.mp hw]
          exact ⟨fun h => hne (List.isEmpty_iff.mpr h), hcur⟩
  | cons c s ih =>
      intro w hw
      have hnil : ∀ x ∈ ([] : List β), sep x = false := fun x hx => (List.not_mem_nil hx).elim
      rw [splitLoop] at hw
      split at hw
      · split at hw
        · exact ih hnil w hw
        · next hne =>
            rcases List.mem_cons.mp hw with rfl | hw
            · exact ⟨fun h => hne (List.isEmpty_iff.mpr h), hcur⟩
            · exact ih hnil w hw
      · next hc =>
          refine ih (fun x hx => ?_) w hw
          rcases List.mem_append.mp hx with hx | hx
          · exact hcur x hx
          · rw [List.mem_singleton.mp hx]
            exact Bool.eq_false_iff.mpr hc

theorem split_isWord (s : List β) : ∀ w ∈ split sep s, IsWord sep w :=
  splitLoop_isWord fun _ hc => (List.not_mem_nil hc).elim

theorem splitLoop_map {f : β → β} (hf : ∀ c, sep (f c) = sep c) (cur s : List β) :
    splitLoop sep (cur.map f) (s.map f) = (splitLoop sep cur s).map (List.map f) := by
  have hempty : ∀ cur : List β, (cur.map f).isEmpty = cur.isEmpty := by
    intro cur
    cases cur <;> rfl
  induction s generalizing cur with
  | nil =>
      rw [List.map_nil, splitLoop, splitLoop, hempty]
      split <;> rfl
  | cons c s ih =>
      have hstart := ih []
      have hmore := ih (cur ++ [c])
      rw [List.map_nil] at hstart
      rw [List.map_append, List.map_singleton] at hmore
      rw [List.map_cons, splitLoop, splitLoop, hf, hempty, hstart, hmore]
      split
      · split <;> rfl
      · rfl

/-- Folding characters first or the words' characters later is the same. -/
theorem split_map {f : β → β} (hf : ∀ c, sep (f c) = sep c) (s : List β) :
    split sep (s.map f) = (split sep s).map (List.map f) := splitLoop_map hf [] s

/-! ## Joining -/

theorem split_join {c : β} (hc : sep c = true) {ws : List (List β)}
    (h : ∀ w ∈ ws, IsWord sep w) : split sep (join c ws) = ws := by
  induction ws with
  | nil => rfl
  | cons w ws ih =>
      have hw := split_word (h w (List.mem_cons_self ..))
      have hrest := ih fun x hx => h x (List.mem_cons_of_mem w hx)
      rw [join]
      cases ws with
      | nil => rw [List.flatMap_nil, List.append_nil, hw]
      | cons v ws =>
          rw [List.flatMap_cons, List.cons_append, split_sep w hc, hw]
          exact congrArg (w :: ·) hrest

theorem join_concat (c : β) {ws : List (List β)} (hne : ws ≠ []) (w : List β) :
    join c (ws ++ [w]) = join c ws ++ c :: w := by
  cases ws with
  | nil => exact absurd rfl hne
  | cons v ws =>
      rw [List.cons_append, join, join, List.flatMap_append, List.flatMap_singleton,
        List.append_assoc]

/-- A loop that puts a separator before every word but the first. -/
theorem foldl_join (c : β) {ws : List (List β)} (h : ∀ w ∈ ws, w ≠ []) :
    ws.foldl (fun out w => (if out.isEmpty then out else out ++ [c]) ++ w) [] = join c ws := by
  induction ws using List.reverseRecOn with
  | nil => rfl
  | append_singleton ws w ih =>
      rw [List.foldl_append, ih fun x hx => h x (List.mem_append_left _ hx), List.foldl_cons,
        List.foldl_nil]
      cases ws with
      | nil =>
          show [] ++ w = w ++ []
          rw [List.nil_append, List.append_nil]
      | cons v ws =>
          have hne : (join c (v :: ws)).isEmpty ≠ true := by
            rw [Ne, List.isEmpty_iff, join, List.append_eq_nil_iff]
            exact fun hnil => h v (List.mem_append_left _ (List.mem_cons_self ..)) hnil.1
          rw [if_neg hne, join_concat c (List.cons_ne_nil _ _), List.append_assoc,
            List.singleton_append]

/-- The same with a counter. -/
theorem foldl_range_join (c : β) (f : Nat → List β) (n : Nat) :
    (List.range n).foldl (fun out i => (if i = 0 then out else out ++ [c]) ++ f i) [] =
      join c ((List.range n).map f) := by
  induction n with
  | zero => rfl
  | succ n ih =>
      rw [List.range_succ, List.foldl_append, ih, List.foldl_cons, List.foldl_nil,
        List.map_append, List.map_singleton]
      cases n with
      | zero =>
          show [] ++ f 0 = f 0 ++ []
          rw [List.nil_append, List.append_nil]
      | succ n =>
          have hne : (List.range (n + 1)).map f ≠ [] := by
            rw [Ne, List.map_eq_nil_iff, List.range_eq_nil]
            exact Nat.succ_ne_zero n
          rw [if_neg (Nat.succ_ne_zero n), join_concat c hne, List.append_assoc,
            List.singleton_append]

/-! ## Texts that differ in separators and case only -/

/-- Made of the same words, up to the folding: characters that fold alike stand
for each other, and so do non-empty stretches of separators; those at either end
may be missing. -/
inductive Alike (sep : β → Bool) (fold : β → β) : List β → List β → Prop
  | refl (s) : Alike sep fold s s
  | symm {s t} : Alike sep fold s t → Alike sep fold t s
  | trans {s t r} : Alike sep fold s t → Alike sep fold t r → Alike sep fold s r
  | char (s t) {c d} : fold c = fold d → Alike sep fold (s ++ c :: t) (s ++ d :: t)
  | gap (s t) {u v} : (∀ c ∈ u, sep c = true) → (∀ c ∈ v, sep c = true) → u ≠ [] → v ≠ [] →
      Alike sep fold (s ++ (u ++ t)) (s ++ (v ++ t))
  | front (s) {u} : (∀ c ∈ u, sep c = true) → Alike sep fold (u ++ s) s
  | back (s) {u} : (∀ c ∈ u, sep c = true) → Alike sep fold (s ++ u) s

theorem Alike.split_eq {fold : β → β} (hf : ∀ c, sep (fold c) = sep c) {s t : List β}
    (h : Alike sep fold s t) :
    (split sep s).map (List.map fold) = (split sep t).map (List.map fold) := by
  induction h with
  | refl s => rfl
  | symm _ ih => exact ih.symm
  | trans _ _ ih₁ ih₂ => exact ih₁.trans ih₂
  | char s t hcd =>
      rw [← split_map hf, ← split_map hf, List.map_append, List.map_append, List.map_cons,
        List.map_cons, hcd]
  | gap s t hu hv hune hvne => rw [split_gap hu hv hune hvne]
  | front s hu => rw [split_front hu]
  | back s hu => rw [split_back hu]

end Words
