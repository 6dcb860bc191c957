import QuantCore.Consensus.Params
import Mathlib.Data.Nat.Digits.Lemmas

/-!
# Bech32m reads back what it writes

A round of the checksum is linear in the state and the group it takes, and on a
small state it only makes room for the group. So the six groups that stand for
the zeros cancel what the zeros left. Regrouping bits keeps the number they
denote, up to the zeros it pads with. With the charset read back letter by
letter, a text decodes to the prefix and the data it was made of.
-/

namespace QuantCore

/-! ## The checksum is linear -/

theorem and_bit {m : UInt8} (hm : m ∈ ([1, 2, 4, 8, 16] : List UInt8)) (a : UInt8) :
    a &&& m = 0 ∨ a &&& m = m := by
  have h : ([1, 2, 4, 8, 16] : List UInt8).all (fun m => (List.range 256).all fun a =>
      UInt8.ofNat a &&& m == 0 || UInt8.ofNat a &&& m == m) = true := by decide +kernel
  have ha := List.all_eq_true.mp (List.all_eq_true.mp h m hm) a.toNat
    (List.mem_range.mpr a.toNat_lt)
  rw [UInt8.ofNat_toNat, Bool.or_eq_true, beq_iff_eq, beq_iff_eq] at ha
  exact ha

/-- A generator, taken if a bit is set. -/
def tap (c0 m : UInt8) (g : UInt32) : UInt32 := if c0 &&& m ≠ 0 then g else 0

theorem tap_xor {m : UInt8} (hm : m ∈ ([1, 2, 4, 8, 16] : List UInt8)) (a b : UInt8)
    (g : UInt32) : tap (a ^^^ b) m g = tap a m g ^^^ tap b m g := by
  have hne : m ≠ 0 := by
    rintro rfl
    exact absurd hm (by decide)
  have hand : (a ^^^ b) &&& m = (a &&& m) ^^^ (b &&& m) := by
    rw [← UInt8.toNat_inj]
    simp only [UInt8.toNat_and, UInt8.toNat_xor]
    exact Nat.and_xor_distrib_right
  rw [tap, tap, tap, hand]
  rcases and_bit hm a with ha | ha <;> rcases and_bit hm b with hb | hb <;> rw [ha, hb]
  · simp
  · simp [hne]
  · simp [hne]
  · simp [hne]

/-- All five generators of a round. -/
def taps (c0 : UInt8) : UInt32 :=
  tap c0 1 0x3b6a57b2 ^^^ tap c0 2 0x26508e6d ^^^ tap c0 4 0x1ea119fa ^^^
    tap c0 8 0x3d4233dd ^^^ tap c0 16 0x2a1462b3

theorem xor_tap (c : UInt32) (c0 m : UInt8) (g : UInt32) :
    (if c0 &&& m ≠ 0 then c ^^^ g else c) = c ^^^ tap c0 m g := by
  rw [tap]
  split
  · rfl
  · exact UInt32.xor_zero.symm

theorem polymodTaps_eq (c0 : UInt8) (c : UInt32) : polymodTaps c0 c = c ^^^ taps c0 := by
  simp only [polymodTaps, xor_tap]
  rw [taps]
  simp only [UInt32.xor_assoc]

theorem xor_xor_comm (a b c d : UInt32) : (a ^^^ b) ^^^ (c ^^^ d) = (a ^^^ c) ^^^ (b ^^^ d) := by
  rw [UInt32.xor_assoc, ← UInt32.xor_assoc b, UInt32.xor_comm b c, UInt32.xor_assoc c,
    ← UInt32.xor_assoc]

theorem taps_xor (a b : UInt8) : taps (a ^^^ b) = taps a ^^^ taps b := by
  have h : ∀ m ∈ ([1, 2, 4, 8, 16] : List UInt8), ∀ g, tap (a ^^^ b) m g = tap a m g ^^^ tap b m g :=
    fun m hm g => tap_xor hm a b g
  rw [taps, h 1 (by decide), h 2 (by decide), h 4 (by decide), h 8 (by decide),
    h 16 (by decide), taps, taps]
  simp only [xor_xor_comm]

/-- A round without its input. -/
def shiftStep (c : UInt32) : UInt32 := ((c &&& 0x1ffffff) <<< 5) ^^^ taps (c >>> 25).toUInt8

theorem polymodStep_eq (c : UInt32) (x : UInt8) :
    polymodStep c x = shiftStep c ^^^ x.toUInt32 := by
  rw [polymodStep, polymodTaps_eq, shiftStep, UInt32.xor_assoc, UInt32.xor_comm x.toUInt32,
    ← UInt32.xor_assoc]

theorem shiftStep_xor (a b : UInt32) : shiftStep (a ^^^ b) = shiftStep a ^^^ shiftStep b := by
  have hlow : ((a ^^^ b) &&& 0x1ffffff) <<< 5 =
      ((a &&& 0x1ffffff) <<< 5) ^^^ ((b &&& 0x1ffffff) <<< 5) := by
    have hand : (a ^^^ b) &&& 0x1ffffff = (a &&& 0x1ffffff) ^^^ (b &&& 0x1ffffff) := by
      rw [← UInt32.toNat_inj]
      simp only [UInt32.toNat_and, UInt32.toNat_xor]
      exact Nat.and_xor_distrib_right
    rw [hand, ← UInt32.toBitVec_inj]
    simp [BitVec.shiftLeft_xor_distrib]
  have hhigh : ((a ^^^ b) >>> 25).toUInt8 = (a >>> 25).toUInt8 ^^^ (b >>> 25).toUInt8 := by
    rw [← UInt32.toUInt8_xor]
    congr 1
    rw [← UInt32.toBitVec_inj]
    simp [BitVec.ushiftRight_xor_distrib]
  rw [shiftStep, hlow, hhigh, taps_xor, shiftStep, shiftStep, xor_xor_comm]

theorem polymodStep_xor (a b : UInt32) (x y : UInt8) :
    polymodStep (a ^^^ b) (x ^^^ y) = polymodStep a x ^^^ polymodStep b y := by
  rw [polymodStep_eq, shiftStep_xor, UInt8.toUInt32_xor, xor_xor_comm, polymodStep_eq,
    polymodStep_eq]

theorem foldl_polymodStep_xor (a b : UInt32) (xs : Bytes) :
    xs.foldl polymodStep (a ^^^ b) =
      (List.replicate xs.length 0).foldl polymodStep a ^^^ xs.foldl polymodStep b := by
  induction xs generalizing a b with
  | nil => rfl
  | cons x xs ih =>
      have hx : x = 0 ^^^ x := UInt8.zero_xor.symm
      rw [List.foldl_cons, List.foldl_cons, List.length_cons, List.replicate_succ,
        List.foldl_cons, ← ih, ← polymodStep_xor, ← hx]

/-- Below `2^25` a round only makes room. -/
theorem shiftStep_small {c : UInt32} (h : c.toNat < 2 ^ 25) :
    (shiftStep c).toNat = c.toNat * 32 := by
  have hhigh : (c >>> 25).toUInt8 = 0 := by
    rw [← UInt8.toNat_inj]
    simp [Nat.shiftRight_eq_div_pow]
    omega
  have hlow : c &&& 0x1ffffff = c := by
    rw [← UInt32.toNat_inj, UInt32.toNat_and]
    show c.toNat &&& (2 ^ 25 - 1) = _
    rw [Nat.and_two_pow_sub_one_eq_mod, Nat.mod_eq_of_lt h]
  have htaps : taps 0 = 0 := by decide
  rw [shiftStep, hhigh, hlow, htaps, UInt32.xor_zero, UInt32.toNat_shiftLeft]
  show c.toNat <<< 5 % 2 ^ 32 = _
  rw [Nat.shiftLeft_eq, Nat.mod_eq_of_lt (by omega)]

/-- Five clear bits take a small number. -/
theorem mul_xor_eq (a : Nat) {b : Nat} (hb : b < 32) : a * 32 ^^^ b = a * 32 + b := by
  apply Nat.eq_of_testBit_eq
  intro i
  rw [show a * 32 = 2 ^ 5 * a by omega, Nat.testBit_two_pow_mul_add a hb, Nat.testBit_xor,
    Nat.testBit_two_pow_mul]
  by_cases hi : i < 5
  · have hlow : ¬ 5 ≤ i := by omega
    simp [hi, hlow]
  · have hpow : 2 ^ 5 ≤ 2 ^ i := Nat.pow_le_pow_right (by decide) (by omega)
    have hhigh : b.testBit i = false := Nat.testBit_lt_two_pow (by omega)
    have hle : 5 ≤ i := by omega
    simp [hi, hhigh, hle]

theorem polymodStep_small {c : UInt32} {x : UInt8} (h : c.toNat < 2 ^ 25) (hx : x.toNat < 32) :
    (polymodStep c x).toNat = c.toNat * 32 + x.toNat := by
  rw [polymodStep_eq, UInt32.toNat_xor, shiftStep_small h, UInt8.toNat_toUInt32]
  exact mul_xor_eq c.toNat hx

theorem taps_lt (c0 : UInt8) : (taps c0).toNat < 2 ^ 30 := by
  have h : (List.range 256).all (fun a => (taps (UInt8.ofNat a)).toNat < 2 ^ 30) = true := by
    decide +kernel
  have hc := List.all_eq_true.mp h c0.toNat (List.mem_range.mpr c0.toNat_lt)
  rw [UInt8.ofNat_toNat] at hc
  exact of_decide_eq_true hc

theorem shiftStep_lt (c : UInt32) : (shiftStep c).toNat < 2 ^ 30 := by
  rw [shiftStep, UInt32.toNat_xor]
  refine Nat.xor_lt_two_pow ?_ (taps_lt _)
  have hand : (c &&& 0x1ffffff).toNat < 2 ^ 25 := by
    rw [UInt32.toNat_and]
    exact Nat.and_lt_two_pow _ (by decide)
  rw [UInt32.toNat_shiftLeft]
  show (c &&& 0x1ffffff).toNat <<< 5 % 2 ^ 32 < 2 ^ 30
  rw [Nat.shiftLeft_eq]
  omega

theorem polymodStep_lt (c : UInt32) (x : UInt8) : (polymodStep c x).toNat < 2 ^ 30 := by
  rw [polymodStep_eq, UInt32.toNat_xor, UInt8.toNat_toUInt32]
  exact Nat.xor_lt_two_pow (shiftStep_lt c) (by have := x.toNat_lt; omega)

theorem polymod_lt (v : Bytes) : (polymod v).toNat < 2 ^ 30 := by
  rw [polymod]
  induction v using List.reverseRecOn with
  | nil => decide
  | append_singleton v x _ =>
      rw [List.foldl_append]
      exact polymodStep_lt ..

/-- The groups of a number of at most `k` of them, the highest first. -/
def groupsOf (n : Nat) : Nat → Bytes
  | 0 => []
  | k + 1 => UInt8.ofNat (n / 32 ^ k % 32) :: groupsOf n k

/-- Fed to the checksum from the start, the groups of a small number give it back. -/
theorem foldl_groupsOf {n : Nat} (hn : n < 2 ^ 30) {k : Nat} (hk : k ≤ 6) {c : UInt32}
    (hc : c.toNat = n / 32 ^ k) :
    ((groupsOf n k).foldl polymodStep c).toNat = n := by
  induction k generalizing c with
  | zero => rw [groupsOf, List.foldl_nil, hc, Nat.pow_zero, Nat.div_one]
  | succ k ih =>
      have hdigit : (UInt8.ofNat (n / 32 ^ k % 32)).toNat = n / 32 ^ k % 32 := by
        rw [UInt8.toNat_ofNat']
        omega
      have hdiv : n / 32 ^ (k + 1) = n / 32 ^ k / 32 := by
        rw [Nat.pow_succ, Nat.div_div_eq_div_mul]
      have hsmall : c.toNat < 2 ^ 25 := by
        have hle : n / 32 ^ k ≤ n := Nat.div_le_self ..
        omega
      rw [groupsOf, List.foldl_cons]
      refine ih (by omega) ?_
      rw [polymodStep_small hsmall (by omega), hdigit]
      omega

theorem bech32Checksum_eq (hrp d5 : Bytes) :
    bech32Checksum hrp d5 = groupsOf
      (polymod (hrpExpand hrp ++ d5 ++ List.replicate 6 0) ^^^ bech32mConst).toNat 6 := by
  have hgroup : ∀ m : UInt32, ∀ i, i < 6 → ((m >>> UInt32.ofNat (5 * (5 - i))) &&& 31).toUInt8 =
      UInt8.ofNat (m.toNat / 32 ^ (5 - i) % 32) := by
    intro m i hi
    have hshift : (UInt32.ofNat (5 * (5 - i))).toNat % 32 = 5 * (5 - i) := by
      rw [UInt32.toNat_ofNat']
      omega
    rw [← UInt8.toNat_inj, UInt32.toNat_toUInt8, UInt32.toNat_and, UInt32.toNat_shiftRight,
      UInt8.toNat_ofNat', hshift, show (31 : UInt32).toNat = 2 ^ 5 - 1 by decide,
      Nat.and_two_pow_sub_one_eq_mod, Nat.shiftRight_eq_div_pow, Nat.pow_mul]
  exact List.map_congr_left fun i hi => hgroup _ i (List.mem_range.mp hi)

/-- With its checksum in place of the six zeros, a text verifies. -/
theorem polymod_checksum (hrp d5 : Bytes) :
    polymod (hrpExpand hrp ++ (d5 ++ bech32Checksum hrp d5)) = bech32mConst := by
  rw [bech32Checksum_eq, ← List.append_assoc]
  generalize hv : hrpExpand hrp ++ d5 = v
  have hzero : polymod (v ++ List.replicate 6 0) =
      (List.replicate 6 0).foldl polymodStep (polymod v) := by
    rw [polymod, List.foldl_append, polymod]
  generalize hmod : polymod (v ++ List.replicate 6 0) ^^^ bech32mConst = m
  have hlt : m.toNat < 2 ^ 30 := by
    rw [← hmod, UInt32.toNat_xor]
    exact Nat.xor_lt_two_pow (polymod_lt _) (by decide)
  have hlen : (groupsOf m.toNat 6).length = 6 := rfl
  have hback : (groupsOf m.toNat 6).foldl polymodStep 0 = m := by
    rw [← UInt32.toNat_inj]
    refine foldl_groupsOf hlt (Nat.le_refl 6) ?_
    rw [Nat.div_eq_of_lt (by omega)]
    rfl
  have hsplit := foldl_polymodStep_xor (polymod v) 0 (groupsOf m.toNat 6)
  rw [UInt32.xor_zero, hlen, ← hzero, hback] at hsplit
  rw [polymod, List.foldl_append, ← polymod, hsplit, ← hmod, ← UInt32.xor_assoc,
    UInt32.xor_self, UInt32.zero_xor]


/-! ## Regrouping keeps the number -/

/-- The number a text of groups of `k` bits denotes, the highest group first. -/
def groupValue (k : Nat) (l : Bytes) : Nat := Nat.ofDigits (2 ^ k) (l.map UInt8.toNat).reverse

/-- Every group has at most `k` bits. -/
def Groups (k : Nat) (l : Bytes) : Prop := ∀ v ∈ l, v.toNat < 2 ^ k

theorem groupValue_snoc (k : Nat) (l : Bytes) (v : UInt8) :
    groupValue k (l ++ [v]) = groupValue k l * 2 ^ k + v.toNat := by
  rw [groupValue, List.map_append, List.map_cons, List.map_nil, List.reverse_append,
    List.reverse_singleton, List.singleton_append, Nat.ofDigits_cons, groupValue, Nat.add_comm,
    Nat.mul_comm]

theorem Groups.snoc {k : Nat} {l : Bytes} (h : Groups k l) {v : UInt8} (hv : v.toNat < 2 ^ k) :
    Groups k (l ++ [v]) := by
  intro x hx
  rcases List.mem_append.mp hx with hx | hx
  · exact h x hx
  · rw [List.mem_singleton.mp hx]
    exact hv

theorem groupValue_inj {k : Nat} (hk : 0 < k) {l l' : Bytes} (hlen : l.length = l'.length)
    (h : Groups k l) (h' : Groups k l') (hv : groupValue k l = groupValue k l') : l = l' := by
  have hb : 1 < 2 ^ k := Nat.one_lt_two_pow (by omega)
  have hdigits : ∀ {l : Bytes}, Groups k l → ∀ d ∈ (l.map UInt8.toNat).reverse, d < 2 ^ k := by
    intro l hl d hd
    obtain ⟨v, hv, rfl⟩ := List.mem_map.mp (List.mem_reverse.mp hd)
    exact hl v hv
  have heq := Nat.ofDigits_inj_of_len_eq hb (by simp [hlen]) (hdigits h) (hdigits h') hv
  exact List.map_injective_iff.mpr (fun _ _ => UInt8.toNat_inj.mp) (List.reverse_injective heq)

namespace BitGroups

/-- The input so far is what came out, and the bits not yet out. -/
structure Denotes (src dst : Nat) (input : Bytes) (g : BitGroups) : Prop where
  length : src * input.length = dst * g.out.length + g.bits
  value : groupValue src input = groupValue dst g.out * 2 ^ g.bits + g.acc % 2 ^ g.bits
  groups : Groups dst g.out

variable {src dst : Nat} {input : Bytes} {g : BitGroups}

theorem Denotes.emit (h : g.Denotes src dst input) (hb : dst ≤ g.bits) (hdst : dst ≤ 8) :
    (g.emit dst).Denotes src dst input := by
  have hpow : (2 : Nat) ^ dst ≤ 2 ^ 8 := Nat.pow_le_pow_right (by decide) hdst
  have hlt : g.acc / 2 ^ (g.bits - dst) % 2 ^ dst < 2 ^ dst := Nat.mod_lt _ (Nat.two_pow_pos dst)
  have hgroup : (UInt8.ofNat ((g.acc >>> (g.bits - dst)) &&& (2 ^ dst - 1))).toNat =
      g.acc / 2 ^ (g.bits - dst) % 2 ^ dst := by
    rw [UInt8.toNat_ofNat', Nat.and_two_pow_sub_one_eq_mod, Nat.shiftRight_eq_div_pow,
      Nat.mod_eq_of_lt (by omega)]
  have hbits : 2 ^ g.bits = 2 ^ (g.bits - dst) * 2 ^ dst := by
    rw [← Nat.pow_add, Nat.sub_add_cancel hb]
  refine ⟨?_, ?_, h.groups.snoc ?_⟩
  · have := h.length
    show _ = dst * (g.out ++ [_]).length + (g.bits - dst)
    rw [List.length_append, List.length_singleton, Nat.mul_add, this]
    omega
  · show _ = groupValue dst (g.out ++ [_]) * 2 ^ (g.bits - dst) + g.acc % 2 ^ (g.bits - dst)
    rw [groupValue_snoc, hgroup, h.value, hbits, Nat.mod_mul]
    ring
  · rw [hgroup]
    exact hlt

theorem Denotes.emits (h : g.Denotes src dst input) (hdst : dst ≤ 8) {k : Nat}
    (hk : k * dst ≤ g.bits) : ((BitGroups.emit dst)^[k] g).Denotes src dst input ∧
      ((BitGroups.emit dst)^[k] g).bits = g.bits - k * dst := by
  induction k generalizing g with
  | zero => exact ⟨h, by rw [Nat.zero_mul]; rfl⟩
  | succ k ih =>
      rw [Nat.succ_mul] at hk
      have hbits : (g.emit dst).bits = g.bits - dst := rfl
      obtain ⟨hd, hlast⟩ := ih (h.emit (by omega) hdst) (by rw [hbits]; omega)
      rw [Function.iterate_succ_apply]
      exact ⟨hd, by rw [hlast, hbits, Nat.succ_mul]; omega⟩

theorem Denotes.feed (h : g.Denotes src dst input) (hg : g.bits < dst) (hdst : dst ≤ 8)
    (hsrc : src ≤ 8) {v : UInt8} (hv : v.toNat < 2 ^ src) :
    ∃ g', g.feed src dst v = some g' ∧ g'.Denotes src dst (input ++ [v]) ∧ g'.bits < dst := by
  have hshift : v.toNat >>> src = 0 := by
    rw [Nat.shiftRight_eq_div_pow, Nat.div_eq_of_lt hv]
  -- the shifted word keeps its low bits, and the new group fits below them
  have hacc : ((g.acc <<< src) % 2 ^ 32) ||| v.toNat =
      2 ^ src * (g.acc % 2 ^ (32 - src)) + v.toNat := by
    have hword : (2 : Nat) ^ 32 = 2 ^ src * 2 ^ (32 - src) := by
      rw [← Nat.pow_add]
      congr 1
      omega
    rw [Nat.shiftLeft_eq, Nat.mul_comm, hword, Nat.mul_mod_mul_left,
      Nat.two_pow_add_eq_or_of_lt hv]
  generalize hnext : ({ g with
      acc := ((g.acc <<< src) % 2 ^ 32) ||| v.toNat, bits := g.bits + src } : BitGroups) = n
  have hn : n.Denotes src dst (input ++ [v]) := by
    have hmod : n.acc % 2 ^ n.bits = 2 ^ src * (g.acc % 2 ^ g.bits) + v.toNat := by
      have hdvd : (2 : Nat) ^ g.bits ∣ 2 ^ (32 - src) := Nat.pow_dvd_pow 2 (by omega)
      rw [← hnext, hacc, Nat.add_comm g.bits, Nat.pow_add, Nat.mod_mul, Nat.mul_add_mod,
        Nat.mod_eq_of_lt hv, Nat.mul_add_div (Nat.two_pow_pos src), Nat.div_eq_of_lt hv,
        Nat.add_zero, Nat.mod_mod_of_dvd _ hdvd, Nat.add_comm]
    refine ⟨?_, ?_, ?_⟩
    · have := h.length
      rw [← hnext, List.length_append, List.length_singleton, Nat.mul_add, this]
      show _ = dst * g.out.length + (g.bits + src)
      omega
    · rw [groupValue_snoc, h.value, hmod, ← hnext]
      show _ = groupValue dst g.out * 2 ^ (g.bits + src) + _
      rw [Nat.pow_add]
      ring
    · rw [← hnext]
      exact h.groups
  obtain ⟨hd, hbits⟩ := hn.emits hdst (Nat.div_mul_le_self n.bits dst)
  refine ⟨(BitGroups.emit dst)^[n.bits / dst] n, ?_, hd, ?_⟩
  · rw [BitGroups.feed, if_neg (by rw [hshift]; simp), ← hnext]
  · have hmod := Nat.mod_lt n.bits (by omega : 0 < dst)
    have hdiv := Nat.div_add_mod' n.bits dst
    rw [hbits]
    omega

/-- The whole input, group by group. -/
theorem denotes_foldlM (hdst : dst ≤ 8) (hpos : 0 < dst) (hsrc : src ≤ 8)
    (hin : Groups src input) :
    ∃ g, input.foldlM (BitGroups.feed src dst) {} = some g ∧ g.Denotes src dst input ∧
      g.bits < dst := by
  induction input using List.reverseRecOn with
  | nil => exact ⟨{}, rfl, ⟨rfl, rfl, fun v hv => by cases hv⟩, hpos⟩
  | append_singleton input v ih =>
      obtain ⟨g, hg, hd, hb⟩ := ih fun x hx => hin x (List.mem_append_left _ hx)
      obtain ⟨g', hg', hd', hb'⟩ :=
        hd.feed hb hdst hsrc (hin v (List.mem_append_right _ (List.mem_singleton_self v)))
      refine ⟨g', ?_, hd', hb'⟩
      rw [List.foldlM_append, hg]
      show [v].foldlM (BitGroups.feed src dst) g = some g'
      rw [List.foldlM_cons, hg']
      rfl

theorem rest_eq (hb : g.bits ≤ dst) (hdst : dst ≤ 8) :
    g.rest dst = g.acc % 2 ^ g.bits * 2 ^ (dst - g.bits) := by
  have hdvd : (2 : Nat) ^ dst ∣ 2 ^ 32 := Nat.pow_dvd_pow 2 (by omega)
  have hpow : (2 : Nat) ^ dst = 2 ^ g.bits * 2 ^ (dst - g.bits) := by
    rw [← Nat.pow_add]
    congr 1
    omega
  rw [rest, Nat.and_two_pow_sub_one_eq_mod, Nat.mod_mod_of_dvd _ hdvd, Nat.shiftLeft_eq, hpow,
    Nat.mul_mod_mul_right]

end BitGroups

/-- Padded regrouping writes the number with less than a group of zeros after it. -/
theorem convertBits_pad {src dst : Nat} (hdst : dst ≤ 8) (hpos : 0 < dst) (hsrc : src ≤ 8)
    {input : Bytes} (hin : Groups src input) :
    ∃ out extra, convertBits input src dst true = some out ∧ Groups dst out ∧ extra < dst ∧
      dst * out.length = src * input.length + extra ∧
      groupValue dst out = groupValue src input * 2 ^ extra := by
  obtain ⟨g, hg, hd, hb⟩ := BitGroups.denotes_foldlM hdst hpos hsrc hin
  have hrun : convertBits input src dst true = g.finish src dst true := by
    rw [convertBits, hg]
    rfl
  rw [hrun, BitGroups.finish, if_pos rfl]
  by_cases h0 : g.bits = 0
  · refine ⟨g.out, 0, by rw [if_neg (by simpa using h0)], hd.groups, hpos, ?_, ?_⟩
    · have := hd.length
      omega
    · have := hd.value
      rw [h0, Nat.pow_zero, Nat.mod_one, Nat.add_zero, Nat.mul_one] at this
      rw [Nat.pow_zero, Nat.mul_one, this]
  · have hlt : g.acc % 2 ^ g.bits * 2 ^ (dst - g.bits) < 2 ^ dst := by
      have hpow : (2 : Nat) ^ dst = 2 ^ g.bits * 2 ^ (dst - g.bits) := by
        rw [← Nat.pow_add]
        congr 1
        omega
      rw [hpow]
      exact Nat.mul_lt_mul_of_pos_right (Nat.mod_lt _ (Nat.two_pow_pos _)) (Nat.two_pow_pos _)
    have hbyte : (2 : Nat) ^ dst ≤ 2 ^ 8 := Nat.pow_le_pow_right (by decide) hdst
    have hlast : (UInt8.ofNat (g.rest dst)).toNat = g.acc % 2 ^ g.bits * 2 ^ (dst - g.bits) := by
      rw [BitGroups.rest_eq hb.le hdst, UInt8.toNat_ofNat', Nat.mod_eq_of_lt (by omega)]
    refine ⟨g.out ++ [UInt8.ofNat (g.rest dst)], dst - g.bits, by rw [if_pos h0],
      hd.groups.snoc (by rw [hlast]; exact hlt), by omega, ?_, ?_⟩
    · have := hd.length
      rw [List.length_append, List.length_singleton, Nat.mul_add, this]
      omega
    · have hpow : (2 : Nat) ^ dst = 2 ^ g.bits * 2 ^ (dst - g.bits) := by
        rw [← Nat.pow_add]
        congr 1
        omega
      rw [groupValue_snoc, hlast, hd.value, hpow]
      ring

/-- Regrouping back drops those zeros. -/
theorem convertBits_back {d5 data : Bytes} {extra : Nat} (hd5 : Groups 5 d5)
    (hextra : extra < 5) (hlen : 5 * d5.length = 8 * data.length + extra)
    (hv : groupValue 5 d5 = groupValue 8 data * 2 ^ extra) :
    convertBits d5 5 8 false = some data := by
  obtain ⟨g, hg, hd, hb⟩ := BitGroups.denotes_foldlM (show 8 ≤ 8 by decide)
    (show 0 < 8 by decide) (show 5 ≤ 8 by decide) hd5
  have hlen' := hd.length
  have hbits : g.bits = extra := by omega
  have hout : g.out.length = data.length := by omega
  have hval := hd.value
  rw [hv, hbits] at hval
  have hmod : g.acc % 2 ^ extra = 0 := by
    have := congrArg (· % 2 ^ extra) hval
    simpa [Nat.add_mod] using this.symm
  have heq : groupValue 8 data = groupValue 8 g.out := by
    rw [hmod, Nat.add_zero] at hval
    exact Nat.eq_of_mul_eq_mul_right (Nat.two_pow_pos extra) hval
  have hdata : g.out = data :=
    groupValue_inj (by decide) hout hd.groups (fun v _ => v.toNat_lt) heq.symm
  have hrest : g.rest 8 = 0 := by
    rw [BitGroups.rest_eq hb.le (by decide), hbits, hmod, Nat.zero_mul]
  rw [convertBits, hg]
  show g.finish 5 8 false = some data
  rw [BitGroups.finish, if_neg (by decide), if_neg (by rw [hrest]; omega), hdata]

theorem convertBits_invert {data d5 : Bytes} (h : convertBits data 8 5 true = some d5) :
    Groups 5 d5 ∧ convertBits d5 5 8 false = some data := by
  obtain ⟨out, extra, hconv, hout, hextra, hlen, hval⟩ := convertBits_pad
    (show 5 ≤ 8 by decide) (show 0 < 5 by decide) (show 8 ≤ 8 by decide)
    fun v (_ : v ∈ data) => v.toNat_lt
  cases hconv.symm.trans h
  exact ⟨hout, convertBits_back hout hextra hlen hval⟩

/-! ## Letters -/

/-- A letter of the charset: printable, in lower case, not the separator, and
found at its index. -/
theorem charset_letter {v : UInt8} (hv : v.toNat < 32) :
    let c := bech32Charset.getD v.toNat 0
    (33 ≤ c ∧ c ≤ 126) ∧ isUpper c = false ∧ c ≠ bech32Separator ∧ charsetIndex c = some v := by
  have h : (List.range 32).all (fun n =>
      let c := bech32Charset.getD n 0
      (33 ≤ c && c ≤ 126) && !isUpper c && c != bech32Separator &&
        charsetIndex c == some (UInt8.ofNat n)) = true := by decide +kernel
  have hc := List.all_eq_true.mp h v.toNat (List.mem_range.mpr hv)
  simp only [Bool.and_eq_true, decide_eq_true_eq, Bool.not_eq_true', bne_iff_ne, beq_iff_eq,
    UInt8.ofNat_toNat] at hc
  exact ⟨hc.1.1.1, hc.1.1.2, hc.1.2, hc.2⟩

/-- What a prefix has to be: printable characters, none in upper case. -/
def HrpText (hrp : Bytes) : Prop := ∀ c ∈ hrp, (33 ≤ c ∧ c ≤ 126) ∧ isUpper c = false

theorem charsetText_append (a b : Bytes) :
    charsetText (a ++ b) = charsetText a ++ charsetText b := List.map_append

theorem hrpText_charset {l : Bytes} (h : Groups 5 l) : HrpText (charsetText l) := by
  intro c hc
  obtain ⟨v, hv, rfl⟩ := List.mem_map.mp hc
  obtain ⟨hp, hu, -⟩ := charset_letter (h v hv)
  exact ⟨hp, hu⟩

theorem separator_notMem_charset {l : Bytes} (h : Groups 5 l) :
    bech32Separator ∉ charsetText l := by
  intro hc
  obtain ⟨v, hv, he⟩ := List.mem_map.mp hc
  exact (charset_letter (h v hv)).2.2.1 he

theorem mapM_charset {l : Bytes} (h : Groups 5 l) : (charsetText l).mapM charsetIndex = some l := by
  induction l with
  | nil => rfl
  | cons v l ih =>
      have hv := (charset_letter (h v (List.mem_cons_self ..))).2.2.2
      have hl := ih fun x hx => h x (List.mem_cons_of_mem v hx)
      rw [charsetText] at hl ⊢
      rw [List.map_cons, List.mapM_cons, hv, hl]
      rfl

theorem HrpText.bech32Text {s : Bytes} (h : HrpText s) : bech32Text s = true := by
  have hall : s.all (fun c => 33 ≤ c && c ≤ 126) = true :=
    List.all_eq_true.mpr fun c hc => by simpa using (h c hc).1
  have hupper : s.any isUpper = false :=
    List.any_eq_false.mpr fun c hc => by simp [(h c hc).2]
  rw [QuantCore.bech32Text, hall, hupper, Bool.and_false]
  rfl

theorem HrpText.map_toLower {s : Bytes} (h : HrpText s) : s.map toLower = s := by
  refine (List.map_congr_left fun c hc => ?_).trans (List.map_id s)
  rw [toLower, (h c hc).2]
  rfl

theorem lastSeparator_append {hrp data : Bytes} (h : bech32Separator ∉ data) :
    lastSeparator (hrp ++ [bech32Separator] ++ data) = some hrp.length := by
  have hnone : data.reverse.findIdx? (· == bech32Separator) = none := by
    rw [List.findIdx?_eq_none_iff]
    intro c hc
    rw [beq_eq_false_iff_ne]
    rintro rfl
    exact h (List.mem_reverse.mp hc)
  rw [lastSeparator, List.reverse_append, List.reverse_append, List.reverse_singleton,
    List.findIdx?_append, hnone, List.singleton_append, List.findIdx?_cons]
  simp

/-! ## Whole texts -/

theorem groups_groupsOf (n k : Nat) : Groups 5 (groupsOf n k) := by
  induction k with
  | zero => exact fun v hv => by cases hv
  | succ k ih =>
      intro v hv
      rcases List.mem_cons.mp hv with rfl | hv
      · rw [UInt8.toNat_ofNat']
        have := Nat.mod_lt (n / 32 ^ k) (by decide : 0 < 32)
        omega
      · exact ih v hv

theorem groups_append {k : Nat} {a b : Bytes} (ha : Groups k a) (hb : Groups k b) :
    Groups k (a ++ b) := by
  intro v hv
  rcases List.mem_append.mp hv with hv | hv
  · exact ha v hv
  · exact hb v hv

theorem bech32Checksum_length (hrp d5 : Bytes) : (bech32Checksum hrp d5).length = 6 := by
  rw [bech32Checksum, List.length_map, List.length_range]

/-- An encoded text: the prefix, and groups of five bits with their checksum. -/
theorem bech32mEncode_text (hrp data : Bytes) : ∃ d5, convertBits data 8 5 true = some d5 ∧
    bech32mEncode hrp data =
      hrp ++ [bech32Separator] ++ charsetText (d5 ++ bech32Checksum hrp d5) ∧
    Groups 5 (d5 ++ bech32Checksum hrp d5) := by
  obtain ⟨d5, -, hconv, hd5, -, -, -⟩ := convertBits_pad
    (show 5 ≤ 8 by decide) (show 0 < 5 by decide) (show 8 ≤ 8 by decide)
    fun v (_ : v ∈ data) => v.toNat_lt
  have hsum : Groups 5 (bech32Checksum hrp d5) := by
    rw [bech32Checksum_eq]
    exact groups_groupsOf _ _
  refine ⟨d5, hconv, ?_, groups_append hd5 hsum⟩
  rw [bech32mEncode, hconv, charsetText_append, ← List.append_assoc]
  rfl

theorem bech32mDecode_encode {hrp data : Bytes} (hne : hrp ≠ []) (hhrp : HrpText hrp)
    (hlen : (bech32mEncode hrp data).length ≤ 120) :
    bech32mDecode (bech32mEncode hrp data) = some (hrp, data) := by
  obtain ⟨d5, hconv, henc, hgroups⟩ := bech32mEncode_text hrp data
  have hsix := bech32Checksum_length hrp d5
  have htext : HrpText (bech32mEncode hrp data) := by
    rw [henc]
    intro c hc
    rcases List.mem_append.mp hc with hc | hc
    · rcases List.mem_append.mp hc with hc | hc
      · exact hhrp c hc
      · rw [List.mem_singleton.mp hc]
        decide
    · exact hrpText_charset hgroups c hc
  have hsep : lastSeparator (bech32mEncode hrp data) = some hrp.length := by
    rw [henc]
    exact lastSeparator_append (separator_notMem_charset hgroups)
  have hdata : (bech32mEncode hrp data).drop (hrp.length + 1) =
      charsetText (d5 ++ bech32Checksum hrp d5) := by
    rw [henc]
    exact List.drop_left' (by rw [List.length_append, List.length_singleton])
  have htake : (bech32mEncode hrp data).take hrp.length = hrp := by
    rw [henc, List.append_assoc]
    exact List.take_left' rfl
  have hread : readGroups hrp (charsetText (d5 ++ bech32Checksum hrp d5)) =
      some (d5 ++ bech32Checksum hrp d5) := by
    rw [readGroups, mapM_charset hgroups]
    simp only [polymod_checksum, if_true]
  have hbounds : ¬ (hrp.length < 1 ∨ hrp.length + 7 > (bech32mEncode hrp data).length ∨
      (bech32mEncode hrp data).length > 120) := by
    have hpos := List.length_pos_iff.mpr hne
    have htotal : (bech32mEncode hrp data).length = hrp.length + 1 + (d5.length + 6) := by
      rw [henc, List.length_append, List.length_append, List.length_singleton, charsetText,
        List.length_map, List.length_append, hsix]
    omega
  have hbody : (d5 ++ bech32Checksum hrp d5).take
      ((d5 ++ bech32Checksum hrp d5).length - 6) = d5 := by
    rw [List.length_append, hsix, Nat.add_sub_cancel]
    exact List.take_left' rfl
  rw [bech32mDecode, htext.bech32Text, if_neg (by decide)]
  simp only [htext.map_toLower, hsep]
  rw [if_neg hbounds]
  simp only [htake, hdata, hread, hbody]
  rw [(convertBits_invert hconv).2]
  rfl

/-! ## Addresses -/

/-- Five bits a character, and the prefix, the separator and the checksum. -/
theorem bech32mEncode_length (hrp data : Bytes) : ∃ groups extra,
    (bech32mEncode hrp data).length = hrp.length + 7 + groups ∧ extra < 5 ∧
      5 * groups = 8 * data.length + extra := by
  obtain ⟨d5, extra, hconv, -, hextra, hlen, -⟩ := convertBits_pad
    (show 5 ≤ 8 by decide) (show 0 < 5 by decide) (show 8 ≤ 8 by decide)
    fun v (_ : v ∈ data) => v.toNat_lt
  refine ⟨d5.length, extra, ?_, hextra, hlen⟩
  rw [bech32mEncode, hconv]
  simp only [Option.getD_some, List.length_append, List.length_singleton, charsetText,
    List.length_map, bech32Checksum_length]
  omega

theorem hrp_text [Crypto] (n : Network) : HrpText (paramsFor n).hrp ∧
    (paramsFor n).hrp ≠ [] ∧ (paramsFor n).hrp.length ≤ 4 := by
  have h : [textBytes "qnt", textBytes "tqnt", textBytes "rqnt"].all (fun hrp =>
      hrp.all (fun c => (33 ≤ c && c ≤ 126) && !isUpper c) && !hrp.isEmpty &&
        hrp.length ≤ 4) = true := by decide
  have hmem : (paramsFor n).hrp ∈ [textBytes "qnt", textBytes "tqnt", textBytes "rqnt"] := by
    cases n
    · exact List.mem_cons_self ..
    · exact List.mem_cons_of_mem _ (List.mem_cons_self ..)
    · exact List.mem_cons_of_mem _ (List.mem_cons_of_mem _ (List.mem_cons_self ..))
  have hn := List.all_eq_true.mp h _ hmem
  simp only [Bool.and_eq_true, decide_eq_true_eq, Bool.not_eq_true', List.all_eq_true,
    List.isEmpty_eq_false_iff] at hn
  exact ⟨hn.1.1, hn.1.2, hn.2⟩

/-- An address of a network reads back, and no other network takes it. -/
theorem decodeAddress_encode [Crypto] (n m : Network) (ver : UInt8) (addr : Hash256) :
    decodeAddress (paramsFor m) (encodeAddress (paramsFor n) ver addr) =
      if (paramsFor n).hrp = (paramsFor m).hrp then some (ver, addr) else none := by
  obtain ⟨htext, hne, hlen⟩ := hrp_text n
  obtain ⟨groups, extra, htotal, hextra, hgroups⟩ :=
    bech32mEncode_length (paramsFor n).hrp (ver :: addr.bytes)
  have hbytes : (ver :: addr.bytes).length = 33 := by
    rw [List.length_cons, Hash256.bytes_length]
  have hshort : (bech32mEncode (paramsFor n).hrp (ver :: addr.bytes)).length ≤ 120 := by omega
  have hdec := bech32mDecode_encode hne htext hshort
  rw [decodeAddress, encodeAddress, hdec]
  show (if (paramsFor n).hrp ≠ (paramsFor m).hrp ∨ (ver :: addr.bytes).length ≠ 33 then none
    else some (ver, Hash256.ofBytes addr.bytes)) = _
  rw [Hash256.ofBytes_bytes]
  simp only [hbytes, ne_eq, not_true_eq_false, or_false, ite_not]

end QuantCore
