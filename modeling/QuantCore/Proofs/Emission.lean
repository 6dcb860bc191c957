import QuantCore.Consensus.Emission
import QuantCore.Lib.Decay

/-!
# Looking up the emission

Whatever has been asked before, the checkpoints hold the totals of the
recurrence and the tail is where the recurrence first pays no more than the tail
subsidy. So a lookup is the recurrence, whether it steps from a checkpoint or
multiplies from the tail on, as long as the total fits 64 bits.
-/

namespace QuantCore

open Decay

/-! ## The recurrence over the naturals -/

/-- `subsidy_after`. -/
def subsidyNat (issued : Nat) : Nat :=
  max tailSubsidy.toNat ((emissionCurve.toNat - issued) / 2 ^ emissionSpeed.toNat)

/-- The total through a height. -/
def emitted : Nat → Nat := total subsidyNat

theorem curve_toNat : emissionCurve.toNat = 750000000000000000 := rfl

theorem tail_toNat : tailSubsidy.toNat = 35000000000 := rfl

theorem subsidyAfter_toNat (issued : Amount) :
    (subsidyAfter issued).toNat = subsidyNat issued.toNat := by
  have hr : (if issued ≥ emissionCurve then 0
      else (emissionCurve - issued) >>> emissionSpeed : Amount).toNat =
      (emissionCurve.toNat - issued.toNat) / 2 ^ emissionSpeed.toNat := by
    split
    · next h =>
        rw [ge_iff_le, UInt64.le_iff_toNat_le] at h
        rw [Nat.sub_eq_zero_of_le h, Nat.zero_div]
        rfl
    · next h =>
        rw [ge_iff_le, UInt64.le_iff_toNat_le, Nat.not_le] at h
        rw [UInt64.toNat_shiftRight, UInt64.toNat_sub_of_le _ _ (UInt64.le_iff_toNat_le.mpr h.le),
          Nat.shiftRight_eq_div_pow]
        rfl
  have hmax : ∀ r : Amount, (if r < tailSubsidy then tailSubsidy else r).toNat =
      max tailSubsidy.toNat r.toNat := by
    intro r
    split
    · next h => rw [Nat.max_eq_left (UInt64.lt_iff_toNat_lt.mp h).le]
    · next h => rw [Nat.max_eq_right (UInt64.le_iff_toNat_le.mp (UInt64.not_lt.mp h))]
  rw [subsidyNat, ← hr]
  exact hmax _

theorem subsidyNat_antitone : Antitone subsidyNat := fun _ _ h =>
  max_le_max_left _ (Nat.div_le_div_right (Nat.sub_le_sub_left h _))

theorem tail_le_subsidyNat (issued : Nat) : tailSubsidy.toNat ≤ subsidyNat issued :=
  Nat.le_max_left _ _

/-- Before the tail a block is paid out of what is left of the curve. -/
theorem add_subsidyNat_le {issued : Nat} (h : subsidyNat issued ≠ tailSubsidy.toNat) :
    issued + subsidyNat issued ≤ emissionCurve.toNat := by
  rw [subsidyNat, ne_eq, max_eq_left_iff, Nat.not_le] at h
  rw [subsidyNat, Nat.max_eq_right h.le]
  have hle := Nat.div_le_self (emissionCurve.toNat - issued) (2 ^ emissionSpeed.toNat)
  omega

/-- A 64-bit sum that fits, one round on. -/
theorem add_subsidyAfter {iss : Amount} {a : Nat} (h : iss.toNat = emitted a)
    (hfit : emitted (a + 1) < 2 ^ 64) : (iss + subsidyAfter iss).toNat = emitted (a + 1) := by
  have hnext : emitted (a + 1) = emitted a + subsidyNat (emitted a) := rfl
  rw [UInt64.toNat_add, subsidyAfter_toNat, h, ← hnext, Nat.mod_eq_of_lt hfit]

theorem emitted_mono {a b : Nat} (h : a ≤ b) : emitted a ≤ emitted b :=
  total_mono subsidyNat h

/-- Up to the tail the total is on the curve, and the height is small. -/
theorem before_tail {h : Nat} (hno : ∀ j < h, subsidyNat (emitted j) ≠ tailSubsidy.toNat) :
    emitted h ≤ emissionCurve.toNat ∧ h < 2 ^ 32 := by
  have hle : emitted h ≤ emissionCurve.toNat := by
    cases h with
    | zero => exact Nat.zero_le _
    | succ j => exact add_subsidyNat_le (hno j (Nat.lt_succ_self j))
  have hmul : h * tailSubsidy.toNat ≤ emitted h := mul_le_total tail_le_subsidyNat h
  rw [tail_toNat] at hmul
  rw [curve_toNat] at hle ⊢
  exact ⟨hle, by omega⟩

namespace EmissionCache

/-! ## What the globals hold -/

/-- The tail has been found below height `bound + 1`. -/
def AtTail (c : EmissionCache) (bound : Nat) : Prop :=
  ∃ j < bound, c.tailHeight.toNat = j + 1 ∧ subsidyNat (emitted j) = tailSubsidy.toNat ∧
    c.tailBase.toNat = emitted j

/-- The tail has been looked for in the first `bound` blocks. -/
def Searched (c : EmissionCache) (bound : Nat) : Prop :=
  (c.tailHeight = 0 ∧ ∀ j < bound, subsidyNat (emitted j) ≠ tailSubsidy.toNat) ∨ c.AtTail bound

/-- The checkpoints are totals of the recurrence, and the tail has been looked
for as far as they go. -/
structure Right (c : EmissionCache) : Prop where
  begun : c.issuedAt ≠ []
  issued : ∀ k x, c.issuedAt[k]? = some x → x.toNat = emitted (k * emissionStep)
  searched : c.Searched ((c.issuedAt.length - 1) * emissionStep)

variable {c : EmissionCache}

theorem AtTail.mono {a b : Nat} (h : c.AtTail a) (hab : a ≤ b) : c.AtTail b := by
  obtain ⟨j, hj, hrest⟩ := h
  exact ⟨j, hj.trans_le hab, hrest⟩

theorem AtTail.ne_zero {a : Nat} (h : c.AtTail a) : c.tailHeight ≠ 0 := by
  obtain ⟨j, -, ht, -⟩ := h
  intro hz
  rw [hz] at ht
  exact Nat.succ_ne_zero j ht.symm

theorem Searched.open {a : Nat} (h : c.Searched a) (hz : c.tailHeight = 0) :
    ∀ j < a, subsidyNat (emitted j) ≠ tailSubsidy.toNat := by
  rcases h with h | h
  · exact h.2
  · exact absurd hz h.ne_zero

theorem Searched.found {a : Nat} (h : c.Searched a) (hz : c.tailHeight ≠ 0) : c.AtTail a := by
  rcases h with h | h
  · exact absurd h.1 hz
  · exact h

/-! ## A chunk -/

/-- One round of the chunk looks at the block after `a`. -/
theorem Searched.round {a : Nat} {height : UInt64} {iss : Amount} (h : c.Searched a)
    (hheight : height.toNat = a + 1) (hiss : iss.toNat = emitted a) :
    (if subsidyAfter iss = tailSubsidy ∧ c.tailHeight = 0 then
      { c with tailHeight := height, tailBase := iss } else c).Searched (a + 1) := by
  have hsub := subsidyAfter_toNat iss
  rw [hiss] at hsub
  split
  · next hnow =>
      rw [hnow.1] at hsub
      exact .inr ⟨a, Nat.lt_succ_self a, hheight, hsub.symm, hiss⟩
  · next hnot =>
      rcases h with h | h
      · refine .inl ⟨h.1, fun j hj => ?_⟩
        rcases Nat.lt_succ_iff_lt_or_eq.mp hj with hlt | rfl
        · exact h.2 j hlt
        · rw [← hsub]
          exact fun he => hnot ⟨UInt64.toNat.inj he, h.1⟩
      · exact .inr (h.mono (Nat.le_succ a))

theorem chunkLoop_spec {h i : UInt64} {iss : Amount} {n m : Nat} (hi : i.toNat = m + 1)
    (hheight : h.toNat + m + n + 1 < 2 ^ 64) (hiss : iss.toNat = emitted (h.toNat + m))
    (hfit : emitted (h.toNat + m + n) < 2 ^ 64) (hs : c.Searched (h.toNat + m)) :
    (chunkLoop h n i iss c).1.toNat = emitted (h.toNat + m + n) ∧
      (chunkLoop h n i iss c).2.Searched (h.toNat + m + n) := by
  induction n generalizing i iss m c with
  | zero => exact ⟨hiss, hs⟩
  | succ n ih =>
      have hadd : h.toNat + m + (n + 1) = h.toNat + (m + 1) + n := by omega
      have hsum : (h + i).toNat = h.toNat + m + 1 := by
        rw [UInt64.toNat_add, hi, Nat.mod_eq_of_lt (by omega)]
        omega
      have hnext : (i + 1).toNat = m + 1 + 1 := by
        rw [UInt64.toNat_add, hi, UInt64.toNat_one, Nat.mod_eq_of_lt (by omega)]
      have hone : emitted (h.toNat + m + 1) < 2 ^ 64 :=
        (emitted_mono (by omega)).trans_lt hfit
      rw [chunkLoop, hadd]
      rw [hadd] at hheight hfit
      exact ih hnext hheight (add_subsidyAfter hiss hone) hfit (hs.round hsum hiss)

/-- Where the tail has not been found, the next chunk is on the curve, and a
little beyond it at most. -/
theorem Right.addChunk (hc : c.Right) (hz : c.tailHeight = 0) : c.addChunk.Right := by
  have hstep : emissionStep = 4096 := rfl
  obtain ⟨hcurve, hsmall⟩ := before_tail (hc.searched.open hz)
  have hheight : (UInt64.ofNat ((c.issuedAt.length - 1) * emissionStep)).toNat =
      (c.issuedAt.length - 1) * emissionStep :=
    UInt64.toNat_ofNat_of_lt' (hsmall.trans (by decide))
  have hlast : (c.issuedAt.getLastD 0).toNat = emitted ((c.issuedAt.length - 1) * emissionStep) := by
    refine hc.issued _ _ ?_
    rw [← List.getLast?_eq_getElem?, List.getLast?_eq_some_getLast hc.begun,
      List.getLastD_eq_getLast?, List.getLast?_eq_some_getLast hc.begun]
    rfl
  have hfirst : subsidyNat 0 = 89406967163 := by decide
  have hfit : emitted ((c.issuedAt.length - 1) * emissionStep + emissionStep) < 2 ^ 64 := by
    have hle : emitted ((c.issuedAt.length - 1) * emissionStep + emissionStep) ≤
        emitted ((c.issuedAt.length - 1) * emissionStep) + emissionStep * subsidyNat 0 :=
      total_le subsidyNat_antitone _ _
    rw [hfirst] at hle
    rw [curve_toNat] at hcurve
    omega
  obtain ⟨hiss, hsearch⟩ := @chunkLoop_spec c
    (UInt64.ofNat ((c.issuedAt.length - 1) * emissionStep)) 1 (c.issuedAt.getLastD 0)
    emissionStep 0 rfl (by rw [hheight, Nat.add_zero]; omega)
    (by rw [hheight, Nat.add_zero]; exact hlast) (by rw [hheight, Nat.add_zero]; exact hfit)
    (by rw [hheight, Nat.add_zero]; exact hc.searched)
  rw [hheight, Nat.add_zero] at hiss hsearch
  have hlen := List.length_pos_iff.mpr hc.begun
  have hnext : (c.issuedAt.length - 1) * emissionStep + emissionStep =
      c.issuedAt.length * emissionStep := by
    obtain ⟨l, hl⟩ := Nat.exists_eq_add_of_lt hlen
    rw [hl, Nat.zero_add, Nat.add_sub_cancel, Nat.succ_mul]
  rw [hnext] at hiss hsearch
  rw [EmissionCache.addChunk]
  generalize chunkLoop (UInt64.ofNat ((c.issuedAt.length - 1) * emissionStep)) emissionStep 1
    (c.issuedAt.getLastD 0) c = r at hiss hsearch
  refine ⟨List.append_ne_nil_of_right_ne_nil _ (List.cons_ne_nil _ _), fun k x hx => ?_, ?_⟩
  · simp only [List.getElem?_append] at hx
    split at hx
    · exact hc.issued k x hx
    · next hk =>
        obtain ⟨hk', hx⟩ := List.getElem?_eq_some_iff.mp hx
        rw [List.length_singleton] at hk'
        have hk : k = c.issuedAt.length := by omega
        subst hk
        rw [← hx, List.getElem_singleton]
        exact hiss
  · simp only [List.length_append, List.length_singleton, Nat.add_sub_cancel]
    exact hsearch

/-- The outer loop ends at the tail or past the height. -/
theorem Right.fill {height : Nat} (hc : c.Right) :
    (fill height c).Right ∧
      ((fill height c).tailHeight ≠ 0 ∨
        height ≤ ((fill height c).issuedAt.length - 1) * emissionStep) := by
  induction c using fill.induct height with
  | case1 c hgo ih =>
      rw [EmissionCache.fill, if_pos hgo]
      exact ih (hc.addChunk hgo.2)
  | case2 c hstop =>
      rw [EmissionCache.fill, if_neg hstop]
      refine ⟨hc, ?_⟩
      by_cases hz : c.tailHeight = 0
      · exact .inr (Nat.le_of_not_lt fun hlt => hstop ⟨hlt, hz⟩)
      · exact .inl hz

/-! ## A lookup -/

theorem stepFrom_spec {iss : Amount} {a n : Nat} (h : iss.toNat = emitted a)
    (hfit : emitted (a + n) < 2 ^ 64) : (stepFrom n iss).toNat = emitted (a + n) := by
  induction n generalizing iss a with
  | zero => exact h
  | succ n ih =>
      have hadd : a + (n + 1) = a + 1 + n := by omega
      rw [hadd] at hfit ⊢
      exact ih (add_subsidyAfter h ((emitted_mono (Nat.le_add_right _ _)).trans_lt hfit)) hfit

theorem AtTail.issued {a : Nat} {height : UInt64} (h : c.AtTail a) (hle : c.tailHeight ≤ height)
    (hfit : emitted height.toNat < 2 ^ 64) :
    (c.tailIssued height).toNat = emitted height.toNat := by
  obtain ⟨j, -, ht, hfloor, hbase⟩ := h
  have hle' := UInt64.le_iff_toNat_le.mp hle
  rw [ht] at hle'
  obtain ⟨k, hk⟩ := Nat.exists_eq_add_of_le hle'
  have hlt := height.toNat_lt
  have htotal : emitted height.toNat = emitted j + (k + 1) * tailSubsidy.toNat := by
    rw [hk, Nat.add_assoc, Nat.add_comm 1]
    exact total_floor subsidyNat_antitone tail_le_subsidyNat hfloor (k + 1)
  have hcount : (height - c.tailHeight + 1).toNat = k + 1 := by
    rw [UInt64.toNat_add, UInt64.toNat_sub_of_le _ _ hle, ht, UInt64.toNat_one,
      Nat.mod_eq_of_lt (by omega)]
    omega
  rw [htotal] at hfit ⊢
  rw [tailIssued, UInt64.toNat_add, UInt64.toNat_mul, hcount, hbase, Nat.add_mod_mod,
    Nat.mod_eq_of_lt hfit]

theorem Right.start (c : EmissionCache) (hc : c = {} ∨ c.Right) : c.begun.Right := by
  rcases hc with rfl | hc
  · refine ⟨List.cons_ne_nil _ _, fun k x hx => ?_, .inl ⟨rfl, fun j hj => ?_⟩⟩
    · obtain ⟨hk, rfl⟩ := List.getElem?_eq_some_iff.mp hx
      have hk : k = 0 := Nat.lt_one_iff.mp hk
      subst hk
      rfl
    · exact absurd hj (Nat.not_lt_zero j)
  · have hne : ¬ c.issuedAt.isEmpty = true := fun he => hc.begun (List.isEmpty_iff.mp he)
    rw [EmissionCache.begun, if_neg hne]
    exact hc

/-- A call leaves the globals right, and returns the total where it fits. -/
theorem Right.issuedThrough (hc : c = {} ∨ c.Right) (height : UInt64) :
    (c.issuedThrough height).1.Right ∧
      (emitted height.toNat < 2 ^ 64 →
        (c.issuedThrough height).2.toNat = emitted height.toNat) := by
  have hstart := Right.start c hc
  rw [EmissionCache.issuedThrough]
  simp only []
  split
  · next ht => exact ⟨hstart, (hstart.searched.found ht.1).issued ht.2⟩
  next hfirst =>
  obtain ⟨hfill, hend⟩ := @Right.fill _ height.toNat hstart
  split
  · next ht => exact ⟨hfill, (hfill.searched.found ht.1).issued ht.2⟩
  next hsecond =>
  refine ⟨hfill, fun hfit => ?_⟩
  have hstep : emissionStep = 4096 := rfl
  have hcover : height.toNat ≤
      ((EmissionCache.fill height.toNat c.begun).issuedAt.length - 1) * emissionStep := by
    rcases hend with ht | hle
    · obtain ⟨j, hj, htail, -, -⟩ := hfill.searched.found ht
      have hlt : height.toNat < j + 1 := by
        rw [← htail]
        exact Nat.lt_of_not_le fun hle => hsecond ⟨ht, UInt64.le_iff_toNat_le.mpr hle⟩
      omega
    · exact hle
  have hlen := List.length_pos_iff.mpr hfill.begun
  have hk : height.toNat / emissionStep <
      (EmissionCache.fill height.toNat c.begun).issuedAt.length := by
    rw [hstep] at hcover ⊢
    omega
  have hat := hfill.issued _ _ (List.getElem?_eq_getElem hk)
  have hmod := Nat.div_mul_le_self height.toNat emissionStep
  have hsplit : height.toNat / emissionStep * emissionStep +
      (height.toNat - height.toNat / emissionStep * emissionStep) = height.toNat := by omega
  rw [List.getD_eq_getElem?_getD, List.getElem?_eq_getElem hk, Option.getD_some, stepFrom_spec hat (by rw [hsplit]; exact hfit), hsplit]

/-- The globals after any calls. -/
inductive Reached : EmissionCache → Prop
  | start : Reached {}
  | issued {c : EmissionCache} (hc : Reached c) (height : UInt64) :
      Reached (c.issuedThrough height).1
  | subsidy {c : EmissionCache} (hc : Reached c) (height : UInt64) :
      Reached (c.blockSubsidy height).1

theorem blockSubsidy_succ {height : UInt64} (h : height ≠ 0) :
    c.blockSubsidy height =
      ((c.issuedThrough (height - 1)).1, subsidyAfter (c.issuedThrough (height - 1)).2) := by
  rw [EmissionCache.blockSubsidy, if_neg h]

theorem Reached.right (hc : c.Reached) : c = {} ∨ c.Right := by
  induction hc with
  | start => exact .inl rfl
  | issued hc height ih => exact .inr (Right.issuedThrough ih height).1
  | @subsidy c hc height ih =>
      by_cases hz : height = 0
      · rw [EmissionCache.blockSubsidy, if_pos hz]
        exact ih
      · rw [blockSubsidy_succ hz]
        exact .inr (Right.issuedThrough ih _).1

theorem Reached.issuedThrough (hc : c.Reached) {height : UInt64}
    (hfit : emitted height.toNat < 2 ^ 64) :
    (c.issuedThrough height).2.toNat = emitted height.toNat :=
  (Right.issuedThrough hc.right height).2 hfit

theorem Reached.blockSubsidy (hc : c.Reached) {height : UInt64} (hne : height ≠ 0)
    (hfit : emitted (height.toNat - 1) < 2 ^ 64) :
    (c.blockSubsidy height).2.toNat = subsidyNat (emitted (height.toNat - 1)) := by
  have hone : 1 ≤ height.toNat := Nat.pos_of_ne_zero fun h => hne (UInt64.toNat.inj h)
  have hpred : (height - 1).toNat = height.toNat - 1 :=
    UInt64.toNat_sub_of_le _ _ (UInt64.le_iff_toNat_le.mpr hone)
  rw [← hpred] at hfit ⊢
  rw [blockSubsidy_succ hne, subsidyAfter_toNat, hc.issuedThrough hfit]

theorem issuedSteps_toNat {h : Nat} (hfit : emitted h < 2 ^ 64) :
    (issuedSteps h).toNat = emitted h := by
  induction h with
  | zero => rfl
  | succ h ih => exact add_subsidyAfter (ih ((emitted_mono (Nat.le_succ h)).trans_lt hfit)) hfit

/-- After any calls a lookup is the recurrence, whose totals fit; a block pays
what comes to the total with it, never more than an earlier one, and the tail
subsidy once an earlier one does. -/
theorem emission_lookup {c c₁ c₂ : EmissionCache} (hc : c.Reached) (hc₁ : c₁.Reached)
    (hc₂ : c₂.Reached) {height : UInt64} (hfit : emitted height.toNat < 2 ^ 64) :
    (c.issuedThrough height).2 = issuedSteps height.toNat ∧
      (c.issuedThrough height).2.toNat = emitted height.toNat ∧
      (height ≠ 0 → (c₁.issuedThrough (height - 1)).2.toNat + (c₂.blockSubsidy height).2.toNat =
        (c.issuedThrough height).2.toNat) ∧
      ∀ earlier : UInt64, 1 ≤ earlier → earlier ≤ height →
        (c.blockSubsidy height).2 ≤ (c₁.blockSubsidy earlier).2 ∧
          ((c₁.blockSubsidy earlier).2 = tailSubsidy →
            (c.blockSubsidy height).2 = tailSubsidy) := by
  have hissued := hc.issuedThrough hfit
  have hbelow : ∀ k, k ≤ height.toNat → emitted k < 2 ^ 64 := fun k hk =>
    (emitted_mono hk).trans_lt hfit
  refine ⟨UInt64.toNat.inj (hissued.trans (issuedSteps_toNat hfit).symm), hissued,
    fun hne => ?_, fun earlier hone hle => ?_⟩
  · have hpos : 1 ≤ height.toNat := Nat.pos_of_ne_zero fun h => hne (UInt64.toNat.inj h)
    have hpred : (height - 1).toNat = height.toNat - 1 :=
      UInt64.toNat_sub_of_le _ _ (UInt64.le_iff_toNat_le.mpr hpos)
    have hlt := hbelow (height.toNat - 1) (Nat.sub_le _ _)
    rw [hissued, hc₂.blockSubsidy hne hlt, hc₁.issuedThrough (by rw [hpred]; exact hlt), hpred]
    obtain ⟨k, hk⟩ := Nat.exists_eq_add_of_le hpos
    rw [hk, Nat.add_sub_cancel_left, Nat.add_comm 1]
    rfl
  · rw [UInt64.le_iff_toNat_le] at hone hle
    have hone : 1 ≤ earlier.toNat := hone
    have hne : ∀ h : UInt64, 1 ≤ h.toNat → h ≠ 0 := fun h hp he => by
      rw [he] at hp
      exact absurd hp (by decide)
    have hnow := hc.blockSubsidy (hne height (hone.trans hle)) (hbelow _ (Nat.sub_le _ _))
    have hthen := hc₁.blockSubsidy (hne earlier hone)
      (hbelow _ ((Nat.sub_le _ _).trans hle))
    have hlower : earlier.toNat - 1 ≤ height.toNat - 1 := Nat.sub_le_sub_right hle 1
    rw [UInt64.le_iff_toNat_le, ← UInt64.toNat_inj, ← UInt64.toNat_inj, hnow, hthen]
    exact ⟨round_antitone subsidyNat_antitone hlower,
      round_floor subsidyNat_antitone tail_le_subsidyNat hlower⟩

/-- The second block, whatever was asked for. -/
theorem emission_lookup_second :
    (({} : EmissionCache).issuedThrough 2).2.toNat = 178813923667 := by
  have hfit : emitted (2 : UInt64).toNat < 2 ^ 64 := by decide
  have h := (emission_lookup .start .start .start hfit).2.1
  rw [h]
  decide

end EmissionCache

end QuantCore
