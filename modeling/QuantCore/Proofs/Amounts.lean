import QuantCore.Lib.Decimal
import QuantCore.Util.Amounts

/-!
# Texts of amounts are decimals

Both parsers read a decimal text scaled to their decimals, and reject what has a
finer part or does not fit 64 bits. One text is an exception: `parse_units` takes
a lone dot for zero, which `parse_amount` rejects as it has no digits. The
printers write decimals whose scaled value is the amount.
-/

namespace QuantCore

open DecimalText

/-- What a text is worth in units of `10 ^ -dec`. -/
def unitsOf (s : String) (dec : Nat) : Option Amount :=
  ((ofText s.toList).bind fun x => x.scaled dec maxU64).map UInt64.ofNat

/-! ## `parse_amount` -/

theorem wholeStep_eq (v : Nat) (c : Char) : wholeStep v c =
    if ¬ c.isDigit then none
    else if ¬ v * 10 + (c.toNat - '0'.toNat) ≤ 1000000000000 then none
    else some (v * 10 + (c.toNat - '0'.toNat)) := by
  rw [wholeStep, isDigit_eq]
  simp only [Bool.not_eq_true', Bool.not_eq_false, Nat.not_le, digitValue, gt_iff_lt]

theorem fractionStep_eq (v : Nat) (c : Char) : fractionStep v c =
    if ¬ c.isDigit then none
    else if ¬ True then none
    else some (v * 10 + (c.toNat - '0'.toNat)) := by
  rw [fractionStep, isDigit_eq]
  simp only [Bool.not_eq_true', Bool.not_eq_false, not_true_eq_false, if_false, digitValue]

/-- The fraction, filled up with zeros. -/
theorem padded_eq {f : List Char} (h : f.length ≤ 10) :
    ((List.range 10).map fun i => f.getD i '0') = f ++ List.replicate (10 - f.length) '0' := by
  refine List.ext_getElem (by simp; omega) fun i h₁ h₂ => ?_
  rw [List.getElem_map, List.getElem_range, List.getD_eq_getElem?_getD]
  rcases Nat.lt_or_ge i f.length with hi | hi
  · rw [List.getElem_append_left hi, List.getElem?_eq_getElem hi]
    rfl
  · rw [List.getElem_append_right hi, List.getElem_replicate, List.getElem?_eq_none hi]
    rfl

theorem ofDigitChars_append_zero (w f : List Char) :
    Nat.ofDigitChars 10 (w ++ f) 0 =
      10 ^ f.length * Nat.ofDigitChars 10 w 0 + Nat.ofDigitChars 10 f 0 := by
  rw [Nat.ofDigitChars_append, Nat.ofDigitChars_eq_ofDigitChars_zero]

/-- The rest of `parse_amount`, on the two parts of the text. -/
theorem parseAmount_parts (w f : List Char) :
    (if w.isEmpty && f.isEmpty then none
      else if f.length > 10 then none
      else
        match w.foldlM wholeStep 0 with
        | none => none
        | some v =>
            match ((List.range 10).map fun i => f.getD i '0').foldlM fractionStep 0 with
            | none => none
            | some fr =>
                let v := v * coinUnits.toNat + fr
                if v > maxU64 then none else some (UInt64.ofNat v)) =
      (((if w ++ f = [] ∨ ¬ (w ++ f).all Char.isDigit then none
        else some ⟨Nat.ofDigitChars 10 (w ++ f) 0, f.length⟩ : Option Decimal).bind
          fun x => x.scaled 10 maxU64).map UInt64.ofNat) := by
  by_cases hnil : w ++ f = []
  · obtain ⟨rfl, rfl⟩ := List.append_eq_nil_iff.mp hnil
    rfl
  rw [if_neg (by rwa [Bool.and_eq_true_iff, List.isEmpty_iff, List.isEmpty_iff,
    ← List.append_eq_nil_iff])]
  by_cases hlong : f.length > 10
  · rw [if_pos hlong]
    split
    · rfl
    · have hfine : ¬ (f.length ≤ 10 ∧
          Nat.ofDigitChars 10 (w ++ f) 0 * 10 ^ (10 - f.length) ≤ maxU64) := fun h => Nat.not_le.mpr hlong h.1
      rw [Option.bind_some, Decimal.scaled, if_neg hfine]
      rfl
  rw [if_neg hlong, foldlM_digits (· ≤ 1000000000000) (fun hab hb => hab.trans hb)
      wholeStep_eq w (Nat.zero_le _), padded_eq (Nat.not_lt.mp hlong),
    foldlM_digits (fun _ => True) (fun _ _ => trivial) fractionStep_eq _ trivial,
    List.all_append, List.all_append, ofDigitChars_zeros]
  have hzeros : (List.replicate (10 - f.length) '0').all Char.isDigit = true := by
    rw [List.all_replicate]
    split <;> rfl
  rw [hzeros, Bool.and_true]
  by_cases hdigits : w.all Char.isDigit = true ∧ f.all Char.isDigit = true
  · obtain ⟨hw, hf⟩ := hdigits
    have htext : ¬ (w ++ f = [] ∨ ¬ (true && true) = true) := by
      rintro (h | h)
      · exact hnil h
      · exact h rfl
    rw [hw, hf, if_neg htext, Option.bind_some, Decimal.scaled]
    have hten : coinUnits.toNat = 10 ^ 10 := by decide
    have hvalue : Nat.ofDigitChars 10 (w ++ f) 0 * 10 ^ (10 - f.length) =
        Nat.ofDigitChars 10 w 0 * coinUnits.toNat +
          Nat.ofDigitChars 10 f 0 * 10 ^ (10 - f.length) := by
      have hpow : 10 ^ f.length * 10 ^ (10 - f.length) = 10 ^ 10 := by
        rw [← Nat.pow_add, Nat.add_sub_cancel' (Nat.not_lt.mp hlong)]
      rw [ofDigitChars_append_zero, hten, ← hpow]
      ring
    simp only [hvalue, true_and, and_true, if_true]
    by_cases hlarge : Nat.ofDigitChars 10 w 0 ≤ 1000000000000
    · rw [if_pos hlarge]
      simp only
      split
      · next hover =>
          rw [if_neg (by omega)]
          rfl
      · next hfits =>
          rw [if_pos ⟨Nat.not_lt.mp hlong, Nat.not_lt.mp hfits⟩]
          rfl
    · have hmax : maxU64 < 1000000000000 * coinUnits.toNat := by decide
      have hmul := Nat.mul_le_mul_right coinUnits.toNat (Nat.not_le.mp hlarge).le
      rw [if_neg hlarge, if_neg (by omega)]
      rfl
  · have htext : w ++ f = [] ∨ ¬ (w.all Char.isDigit && f.all Char.isDigit) = true :=
      .inr (by rwa [Bool.and_eq_true_iff])
    rw [if_pos htext]
    rcases not_and_or.mp hdigits with hw | hf
    · rw [if_neg fun h => hw h.1]
      rfl
    · have hpart : ¬ (f.all Char.isDigit = true ∧ True) := fun h => hf h.1
      rw [if_neg hpart]
      split <;> rfl

theorem parseAmount_eq (s : String) :
    parseAmount s = if s.toList.length > 32 then none else unitsOf s 10 := by
  rw [parseAmount, unitsOf]
  generalize s.toList = cs
  simp only
  split
  · next hbad =>
      rcases Bool.or_eq_true_iff.mp hbad with hempty | hlong
      · rw [List.isEmpty_iff.mp hempty]
        rfl
      · rw [if_pos (decide_eq_true_eq.mp hlong)]
  · next hok =>
      rw [Bool.or_eq_true_iff, not_or, decide_eq_true_eq] at hok
      rw [if_neg hok.2]
      exact parseAmount_parts (whole cs) (fraction cs)

/-! ## `parse_units` -/

theorem unitsStep_point (dec v : Nat) : unitsStep dec (v, none) '.' = some (v, some 0) := rfl

theorem unitsStep_two (dec v k : Nat) : unitsStep dec (v, some k) '.' = none := rfl

theorem unitsStep_digit {dec v : Nat} {frac : Option Nat} {c : Char} (hc : c ≠ '.') :
    unitsStep dec (v, frac) c =
      if ¬ c.isDigit then none
      else if (frac.map (· + 1)).any (· > dec) then none
      else if v * 10 + (c.toNat - '0'.toNat) > maxU64 then none
      else some (v * 10 + (c.toNat - '0'.toNat), frac.map (· + 1)) := by
  rw [unitsStep, if_neg hc, isDigit_eq]
  simp only [Bool.not_eq_true', Bool.not_eq_false, digitValue]
  rfl

/-- After the dot. -/
theorem units_fraction (dec : Nat) (f : List Char) {v k : Nat} (hv : v ≤ maxU64) (hk : k ≤ dec) :
    f.foldlM (unitsStep dec) (v, some k) =
      if f.all Char.isDigit ∧ k + f.length ≤ dec ∧ Nat.ofDigitChars 10 f v ≤ maxU64 then
        some (Nat.ofDigitChars 10 f v, some (k + f.length))
      else none := by
  induction f generalizing v k with
  | nil =>
      rw [Nat.ofDigitChars_nil, if_pos ⟨rfl, hk, hv⟩]
      rfl
  | cons c f ih =>
      rw [List.foldlM_cons, List.all_cons, Nat.ofDigitChars_cons, List.length_cons,
        Nat.mul_comm 10 v]
      by_cases hpoint : c = '.'
      · rw [hpoint, unitsStep_two]
        rfl
      · rw [unitsStep_digit hpoint]
        cases hc : c.isDigit with
        | false => rfl
        | true =>
            rw [Bool.true_and]
            simp only [not_true_eq_false, if_false, Option.map_some, Option.any_some,
              decide_eq_true_eq]
            by_cases hmany : k + 1 > dec
            · rw [if_pos hmany, if_neg (by omega)]
              rfl
            · have hle := le_ofDigitChars f (v * 10 + (c.toNat - '0'.toNat))
              rw [if_neg hmany]
              by_cases hlarge : v * 10 + (c.toNat - '0'.toNat) > maxU64
              · rw [if_pos hlarge, if_neg (by omega)]
                rfl
              · rw [if_neg hlarge]
                show f.foldlM (unitsStep dec) (_, some (k + 1)) = _
                rw [ih (Nat.not_lt.mp hlarge) (Nat.not_lt.mp hmany), Nat.add_assoc k 1,
                  Nat.add_comm 1]

/-- The whole text: its digits, and how many of them are decimals. -/
theorem units_text (dec : Nat) (cs : List Char) {v : Nat} (hv : v ≤ maxU64) :
    (cs.foldlM (unitsStep dec) (v, none)).map (fun st => (st.1, st.2.getD 0)) =
      if (whole cs ++ fraction cs).all Char.isDigit ∧ (fraction cs).length ≤ dec ∧
          Nat.ofDigitChars 10 (whole cs ++ fraction cs) v ≤ maxU64 then
        some (Nat.ofDigitChars 10 (whole cs ++ fraction cs) v, (fraction cs).length)
      else none := by
  induction cs generalizing v with
  | nil =>
      show some (v, 0) = if _ then some (Nat.ofDigitChars 10 [] v, 0) else none
      rw [Nat.ofDigitChars_nil, if_pos ⟨rfl, Nat.zero_le _, hv⟩]
  | cons c cs ih =>
      rw [List.foldlM_cons]
      by_cases hpoint : c = '.'
      · have hparts : whole ('.' :: cs) = [] ∧ fraction ('.' :: cs) = cs := ⟨rfl, rfl⟩
        rw [hpoint, unitsStep_point, hparts.1, hparts.2, List.nil_append]
        show Option.map _ (cs.foldlM (unitsStep dec) (v, some 0)) = _
        rw [units_fraction dec cs hv (Nat.zero_le dec), Nat.zero_add]
        split <;> rfl
      · have hparts : whole (c :: cs) = c :: whole cs ∧ fraction (c :: cs) = fraction cs := by
          have hc : (decide (c ≠ '.')) = true := decide_eq_true hpoint
          rw [whole, fraction, List.takeWhile_cons, List.dropWhile_cons, hc]
          exact ⟨rfl, rfl⟩
        rw [hparts.1, hparts.2, List.cons_append, List.all_cons, Nat.ofDigitChars_cons,
          Nat.mul_comm 10 v, unitsStep_digit hpoint]
        cases hc : c.isDigit with
        | false => rfl
        | true =>
            rw [Bool.true_and]
            simp only [not_true_eq_false, if_false, Option.map_none, Option.any_none,
              Bool.false_eq_true]
            have hle := le_ofDigitChars (whole cs ++ fraction cs)
              (v * 10 + (c.toNat - '0'.toNat))
            by_cases hlarge : v * 10 + (c.toNat - '0'.toNat) > maxU64
            · rw [if_pos hlarge, if_neg (by omega)]
              rfl
            · rw [if_neg hlarge]
              exact ih (Nat.not_lt.mp hlarge)

theorem scaleUnits_eq (n : Nat) {v : Nat} (hv : v ≤ maxU64) :
    scaleUnits n v = if v * 10 ^ n ≤ maxU64 then some (v * 10 ^ n) else none := by
  induction n generalizing v with
  | zero => rw [Nat.pow_zero, Nat.mul_one, if_pos hv, scaleUnits]
  | succ n ih =>
      rw [scaleUnits, Nat.pow_succ', ← Nat.mul_assoc]
      split
      · next hlarge =>
          have hpos : v * 10 * 1 ≤ v * 10 * 10 ^ n :=
            Nat.mul_le_mul_left _ (Nat.pow_pos (by decide))
          rw [if_neg (by omega)]
      · next hfits => exact ih (Nat.not_lt.mp hfits)

theorem parseUnits_eq (s : String) (dec : Nat) :
    parseUnits s dec = if s = "." then some 0 else unitsOf s dec := by
  have hdot : s = "." ↔ s.toList = ['.'] := by
    rw [← String.toList_inj]
    rfl
  rw [parseUnits, unitsOf]
  simp only [hdot]
  generalize s.toList = cs
  cases cs with
  | nil => rfl
  | cons c cs =>
      rw [List.isEmpty_cons, if_neg (by decide)]
      have htext := units_text dec (c :: cs) (Nat.zero_le maxU64)
      have hempty : whole (c :: cs) ++ fraction (c :: cs) = [] ↔ c :: cs = ['.'] := by
        by_cases hpoint : c = '.'
        · rw [hpoint]
          show cs = [] ↔ _
          rw [List.cons.injEq, eq_self, true_and]
        · have hc : (decide (c ≠ '.')) = true := decide_eq_true hpoint
          rw [whole, List.takeWhile_cons, hc, if_pos rfl, List.cons_append, List.cons.injEq]
          refine ⟨fun h => ?_, fun h => absurd h.1 hpoint⟩
          cases h
      rw [ofText]
      simp only [hempty]
      by_cases hlone : c :: cs = ['.']
      · rw [hlone, if_pos rfl]
        show (scaleUnits dec 0).map UInt64.ofNat = some 0
        rw [scaleUnits_eq dec (Nat.zero_le _), Nat.zero_mul, if_pos (Nat.zero_le _)]
        rfl
      simp only [hlone, false_or, if_false]
      generalize whole (c :: cs) ++ fraction (c :: cs) = ds at htext
      generalize (fraction (c :: cs)).length = places at htext
      cases hfold : (c :: cs).foldlM (unitsStep dec) (0, none) with
      | none =>
          rw [hfold, Option.map_none] at htext
          simp only
          split
          · rfl
          · next hdigits =>
              rw [Option.bind_some, Decimal.scaled, if_neg]
              · rfl
              · rintro ⟨hplaces, hfits⟩
                have hle := Nat.le_mul_of_pos_right (Nat.ofDigitChars 10 ds 0)
                  (Nat.pow_pos (n := dec - places) (by decide : 0 < 10))
                rw [if_pos ⟨not_not.mp hdigits, hplaces, hle.trans hfits⟩] at htext
                cases htext
      | some st =>
          obtain ⟨v, frac⟩ := st
          rw [hfold, Option.map_some] at htext
          split at htext
          · next hgood =>
              obtain ⟨hdigits, hplaces, hvalue⟩ := hgood
              rw [Option.some.injEq, Prod.mk.injEq] at htext
              obtain ⟨rfl, hfrac⟩ := htext
              simp only at hfrac ⊢
              rw [hfrac, scaleUnits_eq _ hvalue, if_neg (not_not.mpr hdigits), Option.bind_some,
                Decimal.scaled]
              simp only [hplaces, true_and]
          · cases htext

/-! ## Exactness and agreement -/

/-- What a parser gives is the text's value, to the last unit. -/
def ExactUnits (s : String) (dec : Nat) (v : Amount) : Prop :=
  ∃ x, ofText s.toList = some x ∧ x.digits * 10 ^ dec = v.toNat * 10 ^ x.places

theorem unitsOf_exact {s : String} {dec : Nat} {v : Amount} (h : unitsOf s dec = some v) :
    ExactUnits s dec v := by
  obtain ⟨n, hn, rfl⟩ := Option.map_eq_some_iff.mp h
  obtain ⟨x, hx, hscaled⟩ := Option.bind_eq_some_iff.mp hn
  obtain ⟨hexact, hmax⟩ := Decimal.scaled_some hscaled
  have hlt : n < 2 ^ 64 := by
    have : maxU64 < 2 ^ 64 := by decide
    omega
  refine ⟨x, hx, ?_⟩
  rw [UInt64.toNat_ofNat', Nat.mod_eq_of_lt hlt]
  exact hexact

/-- Both parsers take the text for what it is: if it is short they agree on it, and a
value is the text's. -/
structure AmountText (s : String) : Prop where
  agree : s.toList.length ≤ 32 → parseUnits s 10 = parseAmount s
  units : ∀ dec v, dec ≤ 10 → parseUnits s dec = some v → ExactUnits s dec v
  amount : ∀ v, parseAmount s = some v → ExactUnits s 10 v

theorem amountText_iff (s : String) : AmountText s ↔ s ≠ "." := by
  refine ⟨fun h hs => ?_, fun hs => ?_⟩
  · have hunits : parseUnits s 0 = some 0 := by rw [parseUnits_eq, if_pos hs]
    obtain ⟨x, hx, -⟩ := h.units 0 0 (Nat.zero_le _) hunits
    rw [hs] at hx
    cases hx
  · refine ⟨fun hlen => ?_, fun dec v _ h => ?_, fun v h => ?_⟩
    · rw [parseUnits_eq, if_neg hs, parseAmount_eq, if_neg (Nat.not_lt.mpr hlen)]
    · rw [parseUnits_eq, if_neg hs] at h
      exact unitsOf_exact h
    · rw [parseAmount_eq] at h
      split at h
      · cases h
      · exact unitsOf_exact h

/-! ## Printing -/

/-- `std::to_string` writes the digits of a number. -/
theorem toString_digits (n : Nat) : (toString n).toList.all Char.isDigit = true ∧
    Nat.ofDigitChars 10 (toString n).toList 0 = n ∧ (toString n).toList ≠ [] := by
  have hlist : (toString n).toList = Nat.toDigits 10 n := Nat.toList_repr
  rw [hlist]
  exact ⟨List.all_eq_true.mpr fun c hc => Nat.isDigit_of_mem_toDigits (by decide) (by decide) hc,
    Nat.ofDigitChars_ten_toDigits, Nat.toDigits_ne_nil⟩

theorem replicate_digits (k : Nat) : (List.replicate k '0').all Char.isDigit = true := by
  rw [List.all_replicate]
  split <;> rfl

theorem scaled_amount {x : Decimal} {dec : Nat} {a : Amount} (hplaces : x.places ≤ dec)
    (hvalue : x.digits * 10 ^ (dec - x.places) = a.toNat) :
    (x.scaled dec maxU64).map UInt64.ofNat = some a := by
  have hmax : a.toNat ≤ maxU64 := Nat.le_sub_one_of_lt a.toNat_lt
  rw [Decimal.scaled, hvalue, if_pos ⟨hplaces, hmax⟩, Option.map_some, UInt64.ofNat_toNat]

/-- A printed text with a dot, read back. -/
theorem unitsOf_point {s : String} {w f : List Char} {k dec : Nat} {a : Amount}
    (hs : s.toList = w ++ '.' :: f) (hw : w.all Char.isDigit = true) (hne : w ≠ [])
    (hf : (f ++ List.replicate k '0').all Char.isDigit = true) (hlen : f.length + k = dec)
    (hvalue : Nat.ofDigitChars 10 (w ++ (f ++ List.replicate k '0')) 0 = a.toNat) :
    unitsOf s dec = some a := by
  rw [List.all_append, Bool.and_eq_true_iff] at hf
  rw [← List.append_assoc, ofDigitChars_zeros] at hvalue
  rw [unitsOf, hs, ofText_point hw hf.1 hne, Option.bind_some]
  refine scaled_amount (x := ⟨_, _⟩) (by simp only; omega) ?_
  rw [← hvalue]
  simp only [← hlen, Nat.add_sub_cancel_left]

theorem unitsOf_whole {s : String} {dec : Nat} {a : Amount}
    (hs : s.toList.all Char.isDigit = true) (hne : s.toList ≠ [])
    (hvalue : Nat.ofDigitChars 10 s.toList 0 * 10 ^ dec = a.toNat) : unitsOf s dec = some a := by
  rw [unitsOf, ofText_whole hs hne, Option.bind_some]
  exact scaled_amount (x := ⟨_, _⟩) (Nat.zero_le dec) hvalue

theorem popZeros_spec (l : List Char) : ∃ k, l = List.replicate k '0' ++ popZeros l := by
  induction l with
  | nil => exact ⟨0, rfl⟩
  | cons c l ih =>
      cases l with
      | nil => exact ⟨0, rfl⟩
      | cons d rest =>
          rw [popZeros]
          split
          · next hc =>
              obtain ⟨k, hk⟩ := ih
              exact ⟨k + 1, by rw [List.replicate_succ, List.cons_append, ← hk, hc]⟩
          · exact ⟨0, rfl⟩

/-- The text of an amount: whole coins, and some of ten decimals, zeros left out. -/
theorem formatAmount_text (a : Amount) : ∃ w f k, (formatAmount a).toList = w ++ '.' :: f ∧
    w.all Char.isDigit = true ∧ w ≠ [] ∧ w.length ≤ 10 ∧
    (f ++ List.replicate k '0').all Char.isDigit = true ∧ f.length + k = 10 ∧
    Nat.ofDigitChars 10 (w ++ (f ++ List.replicate k '0')) 0 = a.toNat := by
  obtain ⟨hwdigits, hwvalue, hwne⟩ := toString_digits (a / coinUnits).toNat
  obtain ⟨hfdigits, hfvalue, -⟩ := toString_digits (a % coinUnits).toNat
  have hcoin : coinUnits.toNat = 10 ^ 10 := by decide
  have hwlen : (toString (a / coinUnits).toNat).toList.length ≤ 10 := by
    have hlist : (toString (a / coinUnits).toNat).toList =
        Nat.toDigits 10 (a / coinUnits).toNat := Nat.toList_repr
    have hlt := a.toNat_lt
    rw [hlist, Nat.length_toDigits_le_iff (by decide) (by decide), UInt64.toNat_div, hcoin]
    omega
  have hflen : (toString (a % coinUnits).toNat).toList.length ≤ 10 := by
    have hlist : (toString (a % coinUnits).toNat).toList =
        Nat.toDigits 10 (a % coinUnits).toNat := Nat.toList_repr
    rw [hlist, Nat.length_toDigits_le_iff (by decide) (by decide), UInt64.toNat_mod, hcoin]
    omega
  rw [formatAmount]
  simp only [String.toList_append, String.toList_ofList]
  generalize hw : (toString (a / coinUnits).toNat).toList = w at *
  generalize (toString (a % coinUnits).toNat).toList = f at *
  obtain ⟨k, hk⟩ := popZeros_spec (List.replicate (10 - f.length) '0' ++ f).reverse
  have hpadded : (popZeros (List.replicate (10 - f.length) '0' ++ f).reverse).reverse ++
      List.replicate k '0' = List.replicate (10 - f.length) '0' ++ f := by
    have := congrArg List.reverse hk
    rw [List.reverse_reverse, List.reverse_append, List.reverse_replicate] at this
    exact this.symm
  refine ⟨w, (popZeros (List.replicate (10 - f.length) '0' ++ f).reverse).reverse, k,
    by rw [List.append_assoc]; rfl, hwdigits, hwne, hwlen, ?_, ?_, ?_⟩
  · rw [hpadded, List.all_append, replicate_digits, hfdigits]
    rfl
  · have hlen := congrArg List.length hpadded
    simp only [List.length_append, List.length_replicate] at hlen ⊢
    omega
  · have hzero : Nat.ofDigitChars 10 (List.replicate (10 - f.length) '0' ++ f) 0 =
        (a % coinUnits).toNat := by
      rw [Nat.ofDigitChars_append, Nat.ofDigitChars_replicate_zero, Nat.mul_zero, hfvalue]
    have hten : (List.replicate (10 - f.length) '0' ++ f).length = 10 := by
      rw [List.length_append, List.length_replicate]
      omega
    rw [hpadded, ofDigitChars_append_zero, hten, hzero, hwvalue, UInt64.toNat_div,
      UInt64.toNat_mod, hcoin]
    exact Nat.div_add_mod _ _

theorem toList_ne_point {s : String} {w f : List Char} (hs : s.toList = w ++ f)
    (hw : w.all Char.isDigit = true) (hne : w ≠ []) : s ≠ "." := by
  rintro rfl
  cases w with
  | nil => exact hne rfl
  | cons c w =>
      rw [List.cons_append, show ".".toList = ['.'] by rfl, List.cons.injEq] at hs
      rw [List.all_cons, ← hs.1] at hw
      cases hw

theorem parseAmount_formatAmount (a : Amount) : parseAmount (formatAmount a) = some a := by
  obtain ⟨w, f, k, htext, hw, hne, hwlen, hf, hlen, hvalue⟩ := formatAmount_text a
  have hshort : ¬ (formatAmount a).toList.length > 32 := by
    rw [htext, List.length_append, List.length_cons]
    omega
  rw [parseAmount_eq, if_neg hshort]
  exact unitsOf_point htext hw hne hf hlen hvalue

theorem parseUnits_formatUnits (a : Amount) (dec : Nat) :
    parseUnits (formatUnits a dec) dec = some a := by
  rw [formatUnits]
  split
  · next hten =>
      obtain ⟨w, f, k, htext, hw, hne, -, hf, hlen, hvalue⟩ := formatAmount_text a
      rw [hten, parseUnits_eq, if_neg (toList_ne_point htext hw hne)]
      exact unitsOf_point htext hw hne hf hlen hvalue
  obtain ⟨hdigits, hvalue, hne⟩ := toString_digits a.toNat
  generalize (toString a.toNat).toList = s at *
  simp only
  split
  · next hzero =>
      have hs : (String.ofList s).toList = s := String.toList_ofList
      have hpoint := toList_ne_point (f := []) (hs.trans (List.append_nil s).symm) hdigits hne
      rw [hzero, parseUnits_eq, if_neg hpoint]
      exact unitsOf_whole (by rw [hs]; exact hdigits) (by rw [hs]; exact hne)
        (by rw [hs, hvalue, Nat.pow_zero, Nat.mul_one])
  · next hpos =>
      generalize hpad : (if s.length ≤ dec then List.replicate (dec - s.length + 1) '0' ++ s
        else s) = padded
      have hpadded : dec < padded.length ∧ padded.all Char.isDigit = true ∧
          Nat.ofDigitChars 10 padded 0 = a.toNat := by
        rw [← hpad]
        split
        · refine ⟨?_, ?_, ?_⟩
          · rw [List.length_append, List.length_replicate]
            omega
          · rw [List.all_append, replicate_digits, hdigits]
            rfl
          · rw [Nat.ofDigitChars_append, Nat.ofDigitChars_replicate_zero, Nat.mul_zero, hvalue]
        · next hlong => exact ⟨Nat.not_le.mp hlong, hdigits, hvalue⟩
      obtain ⟨hlen, hall, htotal⟩ := hpadded
      have hsplit := List.take_append_drop (padded.length - dec) padded
      have hwlen : (padded.take (padded.length - dec)).length = padded.length - dec :=
        List.length_take_of_le (Nat.sub_le _ _)
      have hflen : (padded.drop (padded.length - dec)).length = dec := by
        rw [List.length_drop]
        omega
      generalize padded.take (padded.length - dec) = w at *
      generalize padded.drop (padded.length - dec) = f at *
      rw [← hsplit, List.all_append, Bool.and_eq_true_iff] at hall
      rw [← hsplit] at htotal
      have hne : w ≠ [] := by
        rintro rfl
        rw [List.length_nil] at hwlen
        omega
      have hcut : ((w ++ '.' :: f).reverse.dropWhile (· = '0')).reverse =
          w ++ '.' :: (f.reverse.dropWhile (· = '0')).reverse := by
        have hrev : (w ++ '.' :: f).reverse = f.reverse ++ '.' :: w.reverse := by
          rw [List.reverse_append, List.reverse_cons, List.append_assoc]
          rfl
        have hdot : ('.' :: w.reverse).dropWhile (· = '0') = '.' :: w.reverse := rfl
        rw [hrev, List.dropWhile_append, hdot]
        split
        · next hempty =>
            rw [List.isEmpty_iff.mp hempty, List.reverse_cons, List.reverse_reverse]
            rfl
        · rw [List.reverse_append, List.reverse_cons, List.reverse_reverse, List.append_assoc]
          rfl
      obtain ⟨k, hk⟩ := dropZeros f
      have hsum : (f.reverse.dropWhile (· = '0')).reverse.length + k = dec := by
        have := congrArg List.length hk
        rw [List.length_append, List.length_replicate, hflen] at this
        exact this.symm
      rw [hcut]
      generalize (f.reverse.dropWhile (· = '0')).reverse = g at *
      rw [hk] at hall htotal
      have hg : g.all Char.isDigit = true := by
        have := hall.2
        rw [List.all_append, Bool.and_eq_true_iff] at this
        exact this.1
      rcases List.eq_nil_or_concat' g with rfl | ⟨g', c, rfl⟩
      · -- nothing but zeros after the dot: the dot goes too
        have hlast : (w ++ ['.']).getLast? = some '.' := List.getLast?_concat
        have hs : (String.ofList w).toList = w := String.toList_ofList
        have hpoint := toList_ne_point (f := []) (hs.trans (List.append_nil w).symm) hall.1 hne
        rw [hlast, if_pos rfl, List.dropLast_concat, parseUnits_eq, if_neg hpoint]
        rw [List.nil_append, ofDigitChars_zeros] at htotal
        rw [List.length_nil, Nat.zero_add] at hsum
        exact unitsOf_whole (by rw [hs]; exact hall.1) (by rw [hs]; exact hne)
          (by rw [hs, ← hsum, htotal])
      · have hlast : (w ++ '.' :: (g' ++ [c])).getLast? = some c := by
          rw [← List.cons_append, ← List.append_assoc, List.getLast?_concat]
        have hc : some c ≠ some '.' := by
          rw [List.all_append, Bool.and_eq_true_iff, List.all_cons, Bool.and_eq_true_iff] at hg
          rintro h
          rw [Option.some.inj h] at hg
          cases hg.2.1
        have hs : (String.ofList (w ++ '.' :: (g' ++ [c]))).toList = w ++ '.' :: (g' ++ [c]) :=
          String.toList_ofList
        rw [hlast, if_neg hc, parseUnits_eq, if_neg (toList_ne_point hs hall.1 hne)]
        exact unitsOf_point hs hall.1 hne hall.2 hsum htotal

/-- Every amount reads back from what was printed, and of every text but a lone
dot both parsers give its value, the same if it is short enough for both. -/
theorem amounts_exact (s : String) :
    (∀ a dec, parseUnits (formatUnits a dec) dec = some a) ∧
    (∀ a, parseAmount (formatAmount a) = some a) ∧
    (AmountText s ↔ s ≠ ".") :=
  ⟨parseUnits_formatUnits, parseAmount_formatAmount, amountText_iff s⟩

/-- A lone dot has no digits; one parser takes it for zero. -/
theorem amounts_lone_dot :
    parseUnits "." 10 = some 0 ∧ parseAmount "." = none ∧ ofText ".".toList = none ∧
      ¬ AmountText "." :=
  ⟨by rw [parseUnits_eq, if_pos rfl], by rw [parseAmount_eq]; rfl, rfl,
    fun h => (amountText_iff ".").mp h rfl⟩

end QuantCore
