import QuantCore.Lib.Position
import QuantCore.Net.Bencode
import Mathlib.Data.List.TakeWhile

/-!
# Bencode: safety and the round trip

Whatever the packet, the decoder returns: the one library call whose exceptions
are not caught reads at most eight bytes that begin with a digit, every round of
a loop takes at least a byte, and the depth is limited. Where it has read a
value it has moved on, and not beyond the end.

What the encoder writes is read back, wherever it stands. A value is told by its
first byte; a number ends at the first byte that no number has; and the keys of
a dictionary come in order, so that each is a new last entry.
-/

namespace QuantCore

open Position

/-! ## Decimal texts -/

def isDigitByte (c : UInt8) : Bool := 0x30 ≤ c && c ≤ 0x39

theorem isDigitByte_iff {c : UInt8} : isDigitByte c = true ↔ 0x30 ≤ c ∧ c ≤ 0x39 := by
  rw [isDigitByte, Bool.and_eq_true, decide_eq_true_eq, decide_eq_true_eq]

theorem digitsOf_eq {s : Bytes} (h : ∀ c ∈ s, isDigitByte c = true) : digitsOf s = s :=
  List.takeWhile_eq_self_iff.mpr h

/-- `std::to_string` writes decimal digits, and at least one. -/
theorem sizeText_digits (n : Nat) : (∀ c ∈ sizeText n, isDigitByte c = true) ∧
    ofDecimal (sizeText n) = n ∧ sizeText n ≠ [] := by
  have hlist : (toString n).toList = Nat.toDigits 10 n := Nat.toList_repr
  have hdigit : ∀ c ∈ Nat.toDigits 10 n, 48 ≤ c.toNat ∧ c.toNat ≤ 57 := fun c hc =>
    Char.isDigit_iff_toNat.mp (Nat.isDigit_of_mem_toDigits (by decide) (by decide) hc)
  have hbyte : ∀ c ∈ Nat.toDigits 10 n, (UInt8.ofNat c.toNat).toNat = c.toNat := by
    intro c hc
    have := hdigit c hc
    rw [UInt8.toNat_ofNat', Nat.mod_eq_of_lt (by omega)]
  rw [sizeText, textBytes, hlist]
  refine ⟨fun c hc => ?_, ?_, ?_⟩
  · obtain ⟨d, hd, rfl⟩ := List.mem_map.mp hc
    have := hdigit d hd
    rw [isDigitByte_iff, UInt8.le_iff_toNat_le, UInt8.le_iff_toNat_le, hbyte d hd]
    exact this
  · refine Eq.trans ?_ (Nat.ofDigitChars_ten_toDigits (n := n))
    rw [ofDecimal, List.foldl_map, Nat.ofDigitChars_eq_foldl]
    refine List.foldl_ext _ _ _ fun v c hc => ?_
    rw [hbyte c hc, Nat.mul_comm]
    rfl
  · rw [ne_eq, List.map_eq_nil_iff]
    exact Nat.toDigits_ne_nil

theorem sizeText_length_le {n k : Nat} (hk : 0 < k) (h : n < 10 ^ k) :
    (sizeText n).length ≤ k := by
  have hlist : (toString n).toList = Nat.toDigits 10 n := Nat.toList_repr
  rw [sizeText, textBytes, hlist, List.length_map]
  exact (Nat.length_toDigits_le_iff (by decide) hk).mpr h

theorem ofDecimal_lt {s : Bytes} (h : ∀ c ∈ s, isDigitByte c = true) :
    ofDecimal s < 10 ^ s.length := by
  induction s using List.reverseRecOn with
  | nil => exact Nat.one_pos
  | append_singleton s c ih =>
      have hs := ih fun x hx => h x (List.mem_append_left _ hx)
      have hc := h c (List.mem_append_right _ (List.mem_singleton_self c))
      rw [isDigitByte_iff, UInt8.le_iff_toNat_le, UInt8.le_iff_toNat_le] at hc
      have hnine : (0x39 : UInt8).toNat = 57 := rfl
      rw [ofDecimal] at hs ⊢
      rw [List.foldl_append, List.foldl_cons, List.foldl_nil, List.length_append,
        List.length_singleton, Nat.pow_succ]
      omega

/-- A digit is neither white space nor a sign. -/
theorem digit_spec {c : UInt8} (h : isDigitByte c = true) :
    isSpace c = false ∧ c ≠ 0x2d ∧ c ≠ 0x2b := by
  rw [isDigitByte_iff] at h
  rw [isSpace]
  grind

/-! ## The library calls -/

theorem stoul_digit {c : UInt8} (h : isDigitByte c = true) {s : Bytes}
    (hfit : ofDecimal (digitsOf (c :: s)) < 2 ^ 64) :
    stoul (c :: s) = some (UInt64.ofNat (ofDecimal (digitsOf (c :: s)))) := by
  obtain ⟨hspace, hminus, hplus⟩ := digit_spec h
  have hne : digitsOf (c :: s) ≠ [] := by
    show (c :: s).takeWhile isDigitByte ≠ []
    rw [List.takeWhile_cons_of_pos h]
    exact List.cons_ne_nil _ _
  have hdrop : (c :: s).dropWhile isSpace = c :: s :=
    List.dropWhile_cons_of_neg (by rw [hspace]; exact Bool.false_ne_true)
  simp only [stoul, hdrop, List.head?_cons, Option.some.injEq, hminus, hplus, or_self, if_false,
    hne, ge_iff_le, Nat.not_le.mpr hfit]

/-- Eight bytes that begin with a digit always hold a number of 64 bits. -/
theorem stoul_returns {c : UInt8} (h : isDigitByte c = true) {s : Bytes}
    (hlen : (c :: s).length ≤ 8) : ∃ n, stoul (c :: s) = some n := by
  have hall : ∀ x ∈ digitsOf (c :: s), isDigitByte x = true :=
    fun x hx => List.all_eq_true.mp List.all_takeWhile x hx
  have hlt := ofDecimal_lt hall
  have hle : (digitsOf (c :: s)).length ≤ (c :: s).length := (List.takeWhile_prefix _).length_le
  have hpow : 10 ^ (digitsOf (c :: s)).length ≤ 10 ^ 8 :=
    Nat.pow_le_pow_right (by decide) (hle.trans hlen)
  exact ⟨_, stoul_digit h (by omega)⟩

theorem stoul_sizeText {n : Nat} (h : n < 2 ^ 64) : stoul (sizeText n) = some (UInt64.ofNat n) := by
  obtain ⟨hdigits, hvalue, hne⟩ := sizeText_digits n
  have hall := digitsOf_eq hdigits
  obtain ⟨c, s, hs⟩ := List.exists_cons_of_ne_nil hne
  rw [hs] at hall hvalue ⊢
  rw [stoul_digit (hdigits c (by rw [hs]; exact List.mem_cons_self)) (by rw [hall, hvalue]; exact h),
    hall, hvalue]

theorem stoll_intText (i : Int64) : stoll (intText i) = some i := by
  have hlo := i.le_toInt
  have hhi := i.toInt_lt
  obtain ⟨hdigits, hvalue, hne⟩ := sizeText_digits i.toInt.natAbs
  have hall := digitsOf_eq hdigits
  rw [intText]
  split
  · next hneg =>
      have hdrop : (0x2d :: sizeText i.toInt.natAbs).dropWhile isSpace =
          0x2d :: sizeText i.toInt.natAbs := List.dropWhile_cons_of_neg (by decide)
      have hv : -(i.toInt.natAbs : Int) = i.toInt := by omega
      have hfit : ¬ (i.toInt < -2 ^ 63 ∨ i.toInt ≥ 2 ^ 63) := by omega
      simp only [stoll, hdrop, List.head?_cons, true_or, if_true, List.drop_succ_cons,
        List.drop_zero, hall, hvalue, hv, hne, hfit, or_self, if_false, Int64.ofInt_toInt]
  · next hpos =>
      obtain ⟨c, s, hs⟩ := List.exists_cons_of_ne_nil hne
      obtain ⟨hspace, hminus, hplus⟩ := digit_spec (hdigits c (by rw [hs]; exact List.mem_cons_self))
      have hdrop : (sizeText i.toInt.natAbs).dropWhile isSpace = sizeText i.toInt.natAbs := by
        rw [hs]
        exact List.dropWhile_cons_of_neg (by rw [hspace]; exact Bool.false_ne_true)
      have hhead : (sizeText i.toInt.natAbs).head? = some c := by rw [hs, List.head?_cons]
      have hv : (i.toInt.natAbs : Int) = i.toInt := by omega
      have hfit : ¬ (i.toInt < -2 ^ 63 ∨ i.toInt ≥ 2 ^ 63) := by omega
      simp only [stoll, hdrop, hhead, Option.some.injEq, hminus, hplus, or_self, if_false, hall,
        hvalue, hv, hne, hfit, Int64.ofInt_toInt]

/-! ## Safety -/

/-- A call returns, and where it returns a value it has moved on within the
packet. -/
def Advances {α : Type} (inp : Bytes) (p : Nat) (r : Except BencStop (BencResult α)) : Prop :=
  ∃ x, r = .ok x ∧ ∀ v p', x = some (v, p') → p < p' ∧ p' ≤ inp.length

section

variable {α : Type} {inp : Bytes} {p q : Nat}

theorem advances_false : Advances (α := α) inp p (.ok none) :=
  ⟨none, rfl, fun _ _ h => by cases h⟩

theorem advances_to {v : α} (hp : p < q) (hq : q ≤ inp.length) :
    Advances inp p (.ok (some (v, q))) := by
  refine ⟨some (v, q), rfl, fun v' p' h => ?_⟩
  cases h
  exact ⟨hp, hq⟩

theorem findByte_some {c : UInt8} {e : Nat} (h : findByte inp c p = some e) :
    p ≤ e ∧ e < inp.length ∧ inp.getD e 0 = c := by
  obtain ⟨k, hk, rfl⟩ := Option.map_eq_some_iff.mp h
  obtain ⟨hlt, hc, -⟩ := List.findIdx?_eq_some_iff_getElem.mp hk
  rw [List.length_drop] at hlt
  rw [beq_iff_eq, List.getElem_drop] at hc
  refine ⟨Nat.le_add_left p k, by omega, ?_⟩
  rw [List.getD_eq_getElem?_getD, Nat.add_comm k p, List.getElem?_eq_getElem (by omega)]
  exact hc

theorem bdecInt_advances (inp : Bytes) (p : Nat) : Advances inp p (bdecInt inp p) := by
  rw [bdecInt]
  split
  · exact advances_false
  · next e he =>
      obtain ⟨hle, hlt, -⟩ := findByte_some he
      split
      · exact advances_false
      split
      · exact advances_false
      · exact advances_to (by omega) hlt

/-- The text that `stoul` gets begins with the digit that `bdec` has seen. -/
theorem bdecStr_advances (hp : p < inp.length) (hc : isDigitByte (inp.getD p 0) = true) :
    Advances inp p (bdecStr inp p) := by
  rw [bdecStr]
  split
  · exact advances_false
  · next colon hcolon =>
      obtain ⟨hle, hlt, hbyte⟩ := findByte_some hcolon
      have hne : p ≠ colon := by
        rintro rfl
        rw [hbyte] at hc
        exact absurd hc (by decide)
      split
      · exact advances_false
      · next hshort =>
          obtain ⟨k, hk⟩ : ∃ k, colon - p = k + 1 := ⟨colon - p - 1, by omega⟩
          have hsub : (substr inp p (colon - p)).bind stoul =
              stoul (inp.getD p 0 :: (inp.drop (p + 1)).take k) := by
            rw [substr, if_neg (by omega), hk, List.drop_eq_getElem_cons hp, List.take_succ_cons,
              List.getD_eq_getElem?_getD, List.getElem?_eq_getElem hp]
            rfl
          obtain ⟨n, hn⟩ := stoul_returns hc (s := (inp.drop (p + 1)).take k) (by
            rw [List.length_cons, List.length_take]
            omega)
          rw [hsub, hn]
          dsimp only
          split
          · exact advances_false
          · next hfits =>
              rw [substr, if_neg (by omega)]
              exact advances_to (by omega) (by omega)

/-- A round moves on, so the loop needs no more rounds than there are bytes. -/
theorem bdecLoop_advances {round : Nat → α → Except BencStop (BencResult α)}
    (hround : ∀ p out, Advances inp p (round p out)) {rounds : Nat} {out : α}
    (hp : p ≤ inp.length) (hrounds : inp.length < rounds + p) :
    Advances inp p (bdecLoop inp round rounds p out) := by
  induction rounds generalizing p out with
  | zero => omega
  | succ rounds ih =>
      rw [bdecLoop]
      split
      · obtain ⟨x, hx, hadv⟩ := hround p out
        rw [hx]
        cases x with
        | none => exact advances_false
        | some x =>
            obtain ⟨hlt, hle⟩ := hadv x.1 x.2 rfl
            obtain ⟨y, hy, hadv'⟩ := @ih _ x.1 hle (by omega)
            refine ⟨y, hy, fun v p' h => ?_⟩
            obtain ⟨hlt', hle'⟩ := hadv' v p' h
            exact ⟨Nat.lt_trans hlt hlt', hle'⟩
      · split
        · exact advances_false
        · exact advances_to (Nat.lt_succ_self p) (by omega)

theorem bdecItem_advances {dec : Nat → Except BencStop (BencResult BVal)}
    (hdec : ∀ p, Advances inp p (dec p)) (p : Nat) (l : List BVal) :
    Advances inp p (bdecItem dec p l) := by
  obtain ⟨x, hx, hadv⟩ := hdec p
  rw [bdecItem, hx]
  cases x with
  | none => exact advances_false
  | some x => exact advances_to (hadv x.1 x.2 rfl).1 (hadv x.1 x.2 rfl).2

theorem bdecEntry_advances {dec : Nat → Except BencStop (BencResult BVal)}
    (hdec : ∀ p, Advances inp p (dec p)) (p : Nat) (d : List (Bytes × BVal)) :
    Advances inp p (bdecEntry dec p d) := by
  obtain ⟨x, hx, hadv⟩ := hdec p
  rw [bdecEntry, hx]
  cases x with
  | none => exact advances_false
  | some x =>
      obtain ⟨v, q⟩ := x
      obtain ⟨hlt, hle⟩ := hadv v q rfl
      cases v with
      | str k =>
          obtain ⟨y, hy, hadv'⟩ := hdec q
          show Advances inp p (dec q >>= _)
          rw [hy]
          cases y with
          | none => exact advances_false
          | some y =>
              obtain ⟨hlt', hle'⟩ := hadv' y.1 y.2 rfl
              exact advances_to (Nat.lt_trans hlt hlt') hle'
      | int i => exact advances_false
      | list l => exact advances_false
      | dict d => exact advances_false

/-- What a container makes of what its loop has read. -/
theorem Advances.map {β : Type} {r : Except BencStop (BencResult α)} (h : Advances inp (p + 1) r)
    (f : α → β) :
    Advances inp p (r >>= fun x => pure (x.map fun out => (f out.1, out.2))) := by
  obtain ⟨x, rfl, hadv⟩ := h
  cases x with
  | none => exact advances_false
  | some x =>
      obtain ⟨hlt, hle⟩ := hadv x.1 x.2 rfl
      exact advances_to (by omega) hle

theorem bdecLevels_advances {levels depth : Nat} (hpos : 0 < levels) (h : 17 < levels + depth)
    (p : Nat) : Advances inp p (bdecLevels inp levels p depth) := by
  induction levels generalizing p depth with
  | zero => exact absurd hpos (Nat.lt_irrefl 0)
  | succ levels ih =>
      rw [bdecLevels]
      split
      · exact advances_false
      · next hgo =>
          rw [not_or, Nat.not_lt, ge_iff_le, Nat.not_le] at hgo
          have hinner : ∀ q, Advances inp q (bdecLevels inp levels q (depth + 1)) :=
            ih (by omega) (by omega)
          dsimp only
          split
          · exact bdecInt_advances inp p
          split
          · refine Advances.map (bdecLoop_advances (bdecItem_advances hinner) hgo.2 ?_) BVal.list
            omega
          split
          · refine Advances.map (bdecLoop_advances (bdecEntry_advances hinner) hgo.2 ?_) BVal.dict
            omega
          split
          · next hdigit => exact bdecStr_advances hgo.2 (isDigitByte_iff.mpr hdigit)
          · exact advances_false

end

/-! ## The round trip -/

/-- At most `n` containers inside each other, strings of less than `10 ^ 8`
bytes, and dictionaries with distinct keys in order. -/
def BVal.Fits : Nat → BVal → Prop
  | _, .int _ => True
  | _, .str s => s.length < 10 ^ 8
  | 0, .list _ => False
  | 0, .dict _ => False
  | n + 1, .list l => ∀ x ∈ l, Fits n x
  | n + 1, .dict d =>
      d.Pairwise (fun a b => a.1 < b.1) ∧ ∀ e ∈ d, e.1.length < 10 ^ 8 ∧ Fits n e.2

/-- The decoder reads the value wherever its encoding stands. -/
def Reads (inp : Bytes) (dec : Nat → Except BencStop (BencResult BVal)) (v : BVal) : Prop :=
  ∀ p, Stands inp p (benc v) → dec p = .ok (some (v, p + (benc v).length))

/-- No value begins with the byte that ends a container. -/
theorem benc_head (v : BVal) : ∃ c bs, benc v = c :: bs ∧ c ≠ 0x65 := by
  cases v with
  | int i => exact ⟨_, _, by rw [benc], by decide⟩
  | list l => exact ⟨_, _, by rw [benc], by decide⟩
  | dict d => exact ⟨_, _, by rw [benc], by decide⟩
  | str s =>
      obtain ⟨hdigits, -, hne⟩ := sizeText_digits s.length
      obtain ⟨c, bs, hs⟩ := List.exists_cons_of_ne_nil hne
      refine ⟨c, bs ++ 0x3a :: s, by rw [benc, bencStr, hs, List.cons_append], ?_⟩
      rintro rfl
      exact absurd (hdigits _ (by rw [hs]; exact List.mem_cons_self)) (by decide)

section

variable {inp : Bytes} {p : Nat} {dec : Nat → Except BencStop (BencResult BVal)}

theorem substr_stands {a : Bytes} (h : Stands inp p a) (hp : p ≤ inp.length) :
    substr inp p a.length = some a := by
  rw [substr, if_neg (Nat.not_lt.mpr hp), h.take]

theorem findByte_stands {c : UInt8} {a b : Bytes} (h : Stands inp p (a ++ c :: b))
    (ha : ∀ x ∈ a, x ≠ c) : findByte inp c p = some (p + a.length) := by
  rw [findByte, h.findIdx? (fun x hx => beq_eq_false_iff_ne.mpr (ha x hx)) (beq_self_eq_true c),
    Option.map_some, Nat.add_comm]

theorem intText_spec (i : Int64) : (∀ c ∈ intText i, c ≠ 0x65) ∧ (intText i).length ≤ 20 := by
  have hlo := i.le_toInt
  have hhi := i.toInt_lt
  have hlen := sizeText_length_le (n := i.toInt.natAbs) (k := 19) (by decide) (by omega)
  have hdigits : ∀ c ∈ sizeText i.toInt.natAbs, c ≠ 0x65 := by
    rintro c hc rfl
    exact absurd ((sizeText_digits _).1 _ hc) (by decide)
  rw [intText]
  split
  · refine ⟨fun c hc => ?_, Nat.succ_le_succ hlen⟩
    rcases List.mem_cons.mp hc with rfl | hc
    · decide
    · exact hdigits c hc
  · exact ⟨hdigits, Nat.le_succ_of_le hlen⟩

theorem bdecInt_reads (inp : Bytes) (i : Int64) : Reads inp (bdecInt inp) (.int i) := by
  intro p h
  rw [benc] at h ⊢
  obtain ⟨hend, hlen⟩ := intText_spec i
  have hfind := findByte_stands (a := 0x69 :: intText i) (c := 0x65) (b := []) h fun x hx => by
    rcases List.mem_cons.mp hx with rfl | hx
    · decide
    · exact hend x hx
  have hsub := substr_stands h.tail.left h.lt_length
  rw [List.length_cons] at hfind
  rw [bdecInt, hfind]
  dsimp only
  rw [if_neg (by omega), show p + ((intText i).length + 1) - p - 1 = (intText i).length by omega,
    hsub, Option.bind_some, stoll_intText, List.length_cons, List.length_append,
    List.length_singleton]
  rfl

theorem bdecStr_reads (inp : Bytes) {s : Bytes} (hs : s.length < 10 ^ 8) :
    Reads inp (bdecStr inp) (.str s) := by
  intro p h
  rw [benc, bencStr] at h ⊢
  obtain ⟨hdigits, -, hne⟩ := sizeText_digits s.length
  have hlen := sizeText_length_le (by decide : 0 < 8) hs
  have hp : p ≤ inp.length := by
    obtain ⟨c, bs, hcons⟩ := List.exists_cons_of_ne_nil hne
    rw [hcons] at h
    exact Nat.le_of_lt h.lt_length
  have hfind := findByte_stands h fun x hx => by
    rintro rfl
    exact absurd (hdigits _ hx) (by decide)
  have hn : (UInt64.ofNat s.length).toNat = s.length := by
    rw [UInt64.toNat_ofNat', Nat.mod_eq_of_lt (by omega)]
  have hbody := h.right.tail
  have hend := h.length_le hp
  rw [List.length_append, List.length_cons] at hend ⊢
  rw [bdecStr, hfind]
  dsimp only
  rw [if_neg (by omega), Nat.add_sub_cancel_left, substr_stands h.left hp, Option.bind_some,
    stoul_sizeText (by omega)]
  dsimp only
  rw [hn, if_neg (by omega), substr_stands hbody (by omega)]
  show Except.ok (some (BVal.str s, _)) = _
  rw [Nat.add_assoc, Nat.add_assoc, Nat.add_comm 1]

/-! ### Containers -/

theorem bdecLoop_end {α : Type} {round : Nat → α → Except BencStop (BencResult α)} {rounds : Nat}
    {out : α} (h : Stands inp p [0x65]) :
    bdecLoop inp round (rounds + 1) p out = .ok (some (out, p + 1)) := by
  have hp := h.lt_length
  rw [bdecLoop, h.getD 0, if_neg (fun hc => hc.2 rfl), if_neg (Nat.not_le.mpr hp)]
  rfl

theorem bdecLoop_round {α : Type} {round : Nat → α → Except BencStop (BencResult α)} {rounds q : Nat}
    {out out' : α} {c : UInt8} {bs : Bytes} (h : Stands inp p (c :: bs)) (hc : c ≠ 0x65)
    (hround : round p out = .ok (some (out', q))) :
    bdecLoop inp round (rounds + 1) p out = bdecLoop inp round rounds q out' := by
  rw [bdecLoop, h.getD 0, if_pos ⟨h.lt_length, hc⟩, hround]
  rfl

theorem bdecItems_reads {l : List BVal} (acc : List BVal) (rounds : Nat)
    (hdec : ∀ x ∈ l, Reads inp dec x) (h : Stands inp p (bencItems l ++ [0x65])) (hrounds : l.length < rounds) :
    bdecLoop inp (bdecItem dec) rounds p acc =
      .ok (some (acc ++ l, p + (bencItems l).length + 1)) := by
  obtain ⟨rounds, rfl⟩ : ∃ k, rounds = k + 1 := ⟨rounds - 1, by omega⟩
  induction l generalizing p acc rounds with
  | nil =>
      rw [bencItems] at h ⊢
      rw [bdecLoop_end h, List.append_nil]
      rfl
  | cons x l ih =>
      rw [bencItems, List.append_assoc] at h
      obtain ⟨c, bs, hx, hc⟩ := benc_head x
      have hread := hdec x List.mem_cons_self p h.left
      have hitem : bdecItem dec p acc = .ok (some (acc ++ [x], p + (benc x).length)) := by
        rw [bdecItem, hread]
        rfl
      rw [List.length_cons] at hrounds
      obtain ⟨rounds, rfl⟩ : ∃ k, rounds = k + 1 := ⟨rounds - 1, by omega⟩
      have hstart := h.left
      rw [hx] at hstart
      rw [bdecLoop_round hstart hc hitem,
        ih _ (fun y hy => hdec y (List.mem_cons_of_mem x hy)) h.right rounds (by omega),
        List.append_assoc, bencItems, List.length_append, Nat.add_assoc p]
      rfl

/-- A key behind all others is a new last entry. -/
theorem putEntry_last {k : Bytes} {x : BVal} {d : List (Bytes × BVal)} (h : ∀ e ∈ d, e.1 < k) :
    putEntry k x d = d ++ [(k, x)] := by
  induction d with
  | nil => rfl
  | cons e d ih =>
      obtain ⟨k', x'⟩ := e
      have hlt : k' < k := h _ List.mem_cons_self
      have hnlt : ¬ k < k' := List.lt_asymm hlt
      have hne : k ≠ k' := by
        rintro rfl
        exact hnlt hlt
      rw [putEntry, if_neg hnlt, if_neg hne, ih fun e he => h e (List.mem_cons_of_mem _ he),
        List.cons_append]

theorem bdecEntries_reads {d : List (Bytes × BVal)} (acc : List (Bytes × BVal)) (rounds : Nat)
    (hdec : ∀ e ∈ d, Reads inp dec (.str e.1) ∧ Reads inp dec e.2)
    (hsorted : (acc ++ d).Pairwise fun a b => a.1 < b.1)
    (h : Stands inp p (bencEntries d ++ [0x65])) (hrounds : d.length < rounds) :
    bdecLoop inp (bdecEntry dec) rounds p acc =
      .ok (some (acc ++ d, p + (bencEntries d).length + 1)) := by
  obtain ⟨rounds, rfl⟩ : ∃ k, rounds = k + 1 := ⟨rounds - 1, by omega⟩
  induction d generalizing p acc rounds with
  | nil =>
      rw [bencEntries] at h ⊢
      rw [bdecLoop_end h, List.append_nil]
      rfl
  | cons e d ih =>
      obtain ⟨k, x⟩ := e
      have hsplit : acc ++ (k, x) :: d = acc ++ [(k, x)] ++ d := by
        rw [List.append_assoc]
        rfl
      rw [bencEntries, List.append_assoc, List.append_assoc] at h
      obtain ⟨hkey, hval⟩ := hdec (k, x) List.mem_cons_self
      have hk : benc (.str k) = bencStr k := by rw [benc]
      obtain ⟨c, bs, hc, hne⟩ := benc_head (.str k)
      rw [hk] at hc
      have hreadk := hkey p (by rw [hk]; exact h.left)
      have hreadx := hval _ h.right.left
      have hlast : ∀ e ∈ acc, e.1 < k := fun e he =>
        (List.pairwise_append.mp hsorted).2.2 e he (k, x) List.mem_cons_self
      have hentry : bdecEntry dec p acc =
          .ok (some (acc ++ [(k, x)], p + (bencStr k).length + (benc x).length)) := by
        rw [bdecEntry, hreadk]
        show (dec (p + (benc (.str k)).length) >>= _) = _
        rw [hk, hreadx, ← putEntry_last hlast]
        rfl
      rw [List.length_cons] at hrounds
      obtain ⟨rounds, rfl⟩ : ∃ k, rounds = k + 1 := ⟨rounds - 1, by omega⟩
      have hstart := h.left
      rw [hc] at hstart
      rw [hsplit] at hsorted ⊢
      rw [bdecLoop_round hstart hne hentry,
        ih _ (fun y hy => hdec y (List.mem_cons_of_mem _ hy)) hsorted h.right.right rounds
          (by omega),
        bencEntries, List.length_append, List.length_append]
      congr 3
      omega

/-- Every value takes a byte at least. -/
theorem length_le_bencItems (l : List BVal) : l.length ≤ (bencItems l).length := by
  induction l with
  | nil => exact Nat.zero_le _
  | cons x l ih =>
      obtain ⟨c, bs, hx, -⟩ := benc_head x
      rw [bencItems, hx, List.length_append, List.length_cons, List.length_cons]
      omega

theorem length_le_bencEntries (d : List (Bytes × BVal)) :
    d.length ≤ (bencEntries d).length := by
  induction d with
  | nil => exact Nat.zero_le _
  | cons e d ih =>
      obtain ⟨k, x⟩ := e
      obtain ⟨c, bs, hx, -⟩ := benc_head x
      rw [bencEntries, hx, List.length_append, List.length_append, List.length_cons,
        List.length_cons]
      omega

theorem bdecLevels_int (inp : Bytes) {levels depth : Nat} (hdepth : depth ≤ 16) (i : Int64) :
    Reads inp (fun p => bdecLevels inp (levels + 1) p depth) (.int i) := by
  intro p h
  have hread := bdecInt_reads inp i p h
  rw [benc] at h
  have hp := h.lt_length
  dsimp only
  rw [bdecLevels, if_neg (by omega), h.getD 0]
  exact hread

theorem bdecLevels_str (inp : Bytes) {levels depth : Nat} (hdepth : depth ≤ 16) {s : Bytes}
    (hs : s.length < 10 ^ 8) :
    Reads inp (fun p => bdecLevels inp (levels + 1) p depth) (.str s) := by
  intro p h
  have hread := bdecStr_reads inp hs p h
  obtain ⟨hdigits, -, hne⟩ := sizeText_digits s.length
  obtain ⟨c, bs, hc⟩ := List.exists_cons_of_ne_nil hne
  have hdigit : isDigitByte c = true := hdigits c (by rw [hc]; exact List.mem_cons_self)
  have hkind : c ≠ 0x69 ∧ c ≠ 0x6c ∧ c ≠ 0x64 := by
    refine ⟨?_, ?_, ?_⟩ <;> rintro rfl <;> exact absurd hdigit (by decide)
  rw [benc, bencStr, hc] at h
  have hp := h.lt_length
  dsimp only
  rw [bdecLevels, if_neg (by omega), h.getD 0]
  dsimp only
  rw [if_neg hkind.1, if_neg hkind.2.1, if_neg hkind.2.2, if_pos (isDigitByte_iff.mp hdigit)]
  exact hread

/-- By induction on how deep the containers of the value go. -/
theorem bdecLevels_reads (inp : Bytes) {n levels depth : Nat} {v : BVal} (hv : v.Fits n)
    (hdepth : n + depth ≤ 16) (hlevels : n ≤ levels) :
    Reads inp (fun p => bdecLevels inp (levels + 1) p depth) v := by
  induction n generalizing v levels depth with
  | zero =>
      cases v with
      | int i => exact bdecLevels_int inp (by omega) i
      | str s => exact bdecLevels_str inp (by omega) hv
      | list l => cases hv
      | dict d => cases hv
  | succ n ih =>
      obtain ⟨levels, rfl⟩ : ∃ k, levels = k + 1 := ⟨levels - 1, by omega⟩
      have hinner : ∀ x : BVal, x.Fits n →
          Reads inp (fun p => bdecLevels inp (levels + 1) p (depth + 1)) x :=
        fun x hx => ih hx (by omega) (by omega)
      cases v with
      | int i => exact bdecLevels_int inp (by omega) i
      | str s => exact bdecLevels_str inp (by omega) hv
      | list l =>
          intro p h
          rw [benc] at h ⊢
          have hp := h.lt_length
          have hlen := h.length_le (Nat.le_of_lt hp)
          rw [List.length_cons, List.length_append, List.length_singleton] at hlen ⊢
          have hitems := length_le_bencItems l
          have hloop := bdecItems_reads [] (inp.length + 1) (fun x hx => hinner x (hv x hx)) h.tail
            (by omega)
          dsimp only
          rw [bdecLevels, if_neg (by omega), h.getD 0]
          show (bdecLoop inp (bdecItem _) (inp.length + 1) (p + 1) [] >>= _) = _
          rw [hloop, List.nil_append, show p + 1 + (bencItems l).length + 1 =
            p + ((bencItems l).length + 1 + 1) by omega]
          rfl
      | dict d =>
          intro p h
          obtain ⟨hsorted, hentries⟩ := hv
          rw [benc] at h ⊢
          have hp := h.lt_length
          have hlen := h.length_le (Nat.le_of_lt hp)
          rw [List.length_cons, List.length_append, List.length_singleton] at hlen ⊢
          have hcount := length_le_bencEntries d
          have hloop := bdecEntries_reads [] (inp.length + 1)
            (fun e he => ⟨bdecLevels_str inp (by omega) (hentries e he).1,
              hinner e.2 (hentries e he).2⟩)
            hsorted h.tail (by omega)
          dsimp only
          rw [bdecLevels, if_neg (by omega), h.getD 0]
          show (bdecLoop inp (bdecEntry _) (inp.length + 1) (p + 1) [] >>= _) = _
          rw [hloop, List.nil_append, show p + 1 + (bencEntries d).length + 1 =
            p + ((bencEntries d).length + 1 + 1) by omega]
          rfl

end

/-- Decoding any packet at any position and depth returns, with a position moved
on and within the packet if it returns a value; and it reads back the encoding
of every value that fits, up to its end. -/
theorem bencode_inverts :
    (∀ inp p depth, ∃ x, bdec inp p depth = .ok x ∧
      ∀ v p', x = some (v, p') → p < p' ∧ p' ≤ inp.length) ∧
    ∀ v : BVal, v.Fits 16 → ∀ front suffix,
      bdec (front ++ benc v ++ suffix) front.length 0 =
        .ok (some (v, (front ++ benc v).length)) := by
  refine ⟨fun inp p depth => bdecLevels_advances (by decide) (by omega) p,
    fun v hv front suffix => ?_⟩
  have hreads : Reads (front ++ benc v ++ suffix)
      (fun p => bdecLevels (front ++ benc v ++ suffix) 18 p 0) v :=
    bdecLevels_reads _ hv (Nat.le_refl 16) (by decide)
  rw [List.length_append]
  exact hreads _ (stands_append front (benc v) suffix)

/-- A message with two keys, a list and a suffix. -/
theorem bencode_inverts_message :
    let v : BVal := .dict [([0x61], .int (-1)), ([0x62], .list [.str [0x65], .list []])]
    bdec (benc v ++ [0x65]) 0 0 = .ok (some (v, (benc v).length)) := by
  intro v
  have hkeys : ([0x61] : Bytes) < [0x62] := by decide
  have hfits : v.Fits 16 := by simp [v, BVal.Fits, hkeys]
  exact bencode_inverts.2 v hfits [] [0x65]

end QuantCore
