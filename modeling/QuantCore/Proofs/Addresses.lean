import QuantCore.Crypto.Instances
import QuantCore.Proofs.Bech32
import QuantCore.Proofs.Canonical

/-!
# One text, one content

The other half of the text form of addresses. What is written reads back; here
what is read writes back to the same text in lower case, so that a content has
no second spelling, and a text with one character changed is not read at all.

Both rest on the checksum being linear. A round of `polymod` on a register
below `2 ^ 30` loses nothing: its five taps differ in their lowest five bits,
where the shifted register has zeros. So a difference of two registers never
dies out over the rounds that follow, which is the detection of a single error,
and six groups are determined by the checksum they complete, which is the
uniqueness of the spelling.
-/

namespace QuantCore

/-! ## Errors stay -/

/-- The taps of a register's top five bits are told apart by their lowest five. -/
theorem taps_low_ne {c0 : UInt8} (hlt : c0.toNat < 32) (h : taps c0 &&& 31 = 0) : c0 = 0 := by
  have hall : (List.range 32).all (fun n =>
      taps (UInt8.ofNat n) &&& 31 != 0 || n == 0) = true := by decide +kernel
  have hc := List.all_eq_true.mp hall c0.toNat (List.mem_range.mpr hlt)
  rw [UInt8.ofNat_toNat, h] at hc
  have hzero : c0.toNat = 0 := by simpa using hc
  rw [← UInt8.toNat_inj, hzero]
  rfl

theorem shift_low (c : UInt32) : ((c &&& 0x1ffffff) <<< 5) &&& 31 = 0 := by
  rw [← UInt32.toNat_inj, UInt32.toNat_and, UInt32.toNat_shiftLeft,
    show (31 : UInt32).toNat = 2 ^ 5 - 1 by decide, Nat.and_two_pow_sub_one_eq_mod,
    show (5 : UInt32).toNat % 32 = 5 by decide, Nat.shiftLeft_eq]
  show _ = 0
  omega

theorem taps_of_shift_zero {c : UInt32} (h : shiftStep c = 0) :
    (c &&& 0x1ffffff) <<< 5 = taps (c >>> 25).toUInt8 := by
  have := congrArg (· ^^^ taps (c >>> 25).toUInt8) h
  simpa only [shiftStep, UInt32.xor_assoc, UInt32.xor_self, UInt32.xor_zero,
    UInt32.zero_xor] using this

theorem shiftStep_ne_zero {c : UInt32} (hlt : c.toNat < 2 ^ 30) (h : c ≠ 0) :
    shiftStep c ≠ 0 := by
  intro hz
  have htop : (c >>> 25).toUInt8.toNat = c.toNat / 2 ^ 25 := by
    rw [UInt32.toNat_toUInt8, UInt32.toNat_shiftRight, Nat.shiftRight_eq_div_pow]
    show c.toNat / 2 ^ 25 % 2 ^ 8 = _
    omega
  have htaps : taps (c >>> 25).toUInt8 &&& 31 = 0 := by
    rw [← taps_of_shift_zero hz, shift_low]
  have hnone : (c >>> 25).toUInt8 = 0 := taps_low_ne (by rw [htop]; omega) htaps
  rw [hnone] at htop
  have hsmall : c.toNat < 2 ^ 25 := by
    have h0 : (0 : UInt8).toNat = 0 := rfl
    omega
  have hval := shiftStep_small hsmall
  rw [hz] at hval
  refine h (UInt32.toNat_inj.mp ?_)
  show c.toNat = 0
  have h0 : (0 : UInt32).toNat = 0 := rfl
  omega

/-- Rounds on zeros keep a difference alive. -/
theorem foldl_zeros_ne (n : Nat) {c : UInt32} (hlt : c.toNat < 2 ^ 30) (h : c ≠ 0) :
    (List.replicate n 0).foldl polymodStep c ≠ 0 := by
  induction n generalizing c with
  | zero => exact h
  | succ n ih =>
      have hstep : polymodStep c 0 = shiftStep c := by
        rw [polymodStep_eq]
        exact UInt32.xor_zero
      rw [List.replicate_succ, List.foldl_cons, hstep]
      exact ih (shiftStep_lt c) (shiftStep_ne_zero hlt h)

/-- From two registers, the same text leads to one only if they were one. -/
theorem foldl_polymodStep_inj {a b : UInt32} (ha : a.toNat < 2 ^ 30) (hb : b.toNat < 2 ^ 30)
    {xs : Bytes} (h : xs.foldl polymodStep a = xs.foldl polymodStep b) : a = b := by
  have hsplit := foldl_polymodStep_xor (a ^^^ b) b xs
  rw [UInt32.xor_assoc, UInt32.xor_self, UInt32.xor_zero, h] at hsplit
  have hdiff : (List.replicate xs.length 0).foldl polymodStep (a ^^^ b) = 0 := by
    have := congrArg (· ^^^ xs.foldl polymodStep b) hsplit
    simpa only [UInt32.xor_self, UInt32.xor_assoc, UInt32.xor_zero] using this.symm
  by_contra hne
  refine foldl_zeros_ne xs.length ?_ (fun hx => hne ?_) hdiff
  · rw [UInt32.toNat_xor]
    exact Nat.xor_lt_two_pow ha hb
  · have := congrArg (· ^^^ b) hx
    simpa only [UInt32.xor_assoc, UInt32.xor_self, UInt32.xor_zero, UInt32.zero_xor] using this

/-- Two texts that differ in one place do not both verify. -/
theorem polymod_single {pre post : Bytes} {x y : UInt8}
    (h : polymod (pre ++ x :: post) = polymod (pre ++ y :: post)) : x = y := by
  rw [polymod, polymod, List.foldl_append, List.foldl_append, List.foldl_cons,
    List.foldl_cons] at h
  have hstep := foldl_polymodStep_inj (polymodStep_lt _ x) (polymodStep_lt _ y) h
  rw [polymodStep_eq, polymodStep_eq] at hstep
  have hxy : x.toUInt32 = y.toUInt32 := by
    have := congrArg (shiftStep (pre.foldl polymodStep 1) ^^^ ·) hstep
    simpa only [← UInt32.xor_assoc, UInt32.xor_self, UInt32.zero_xor] using this
  rw [← UInt8.toNat_inj]
  have := congrArg UInt32.toNat hxy
  rwa [UInt8.toNat_toUInt32, UInt8.toNat_toUInt32] at this

/-! ## The checksum is the only one -/

theorem groupValue_lt {k : Nat} {l : Bytes} (h : Groups k l) :
    groupValue k l < 2 ^ (k * l.length) := by
  induction l using List.reverseRecOn with
  | nil => exact Nat.one_pos
  | append_singleton l v ih =>
      have hl := ih fun x hx => h x (List.mem_append_left _ hx)
      have hv := h v (List.mem_append_right _ (List.mem_singleton_self v))
      rw [groupValue_snoc, List.length_append, List.length_singleton, Nat.mul_add, Nat.mul_one,
        Nat.pow_add]
      calc groupValue k l * 2 ^ k + v.toNat
          < groupValue k l * 2 ^ k + 2 ^ k := by omega
        _ = (groupValue k l + 1) * 2 ^ k := by ring
        _ ≤ 2 ^ (k * l.length) * 2 ^ k := Nat.mul_le_mul_right _ hl

/-- From an empty register up to six groups are only written down. -/
theorem foldl_small {l : Bytes} (h : Groups 5 l) (hlen : l.length ≤ 6) :
    (l.foldl polymodStep 0).toNat = groupValue 5 l := by
  induction l using List.reverseRecOn with
  | nil => rfl
  | append_singleton l v ih =>
      rw [List.length_append, List.length_singleton] at hlen
      have hl : Groups 5 l := fun x hx => h x (List.mem_append_left _ hx)
      have hv := h v (List.mem_append_right _ (List.mem_singleton_self v))
      have hval := ih hl (by omega)
      have hlt : (l.foldl polymodStep 0).toNat < 2 ^ 25 := by
        have hp : 2 ^ (5 * l.length) ≤ 2 ^ 25 := Nat.pow_le_pow_right (by decide) (by omega)
        have := groupValue_lt hl
        omega
      rw [List.foldl_append, List.foldl_cons, List.foldl_nil, polymodStep_small hlt hv, hval,
        groupValue_snoc]
      rfl

theorem checksum_unique {hrp d5 sum : Bytes} (hsum : Groups 5 sum) (hlen : sum.length = 6)
    (h : polymod (hrpExpand hrp ++ (d5 ++ sum)) = bech32mConst) :
    sum = bech32Checksum hrp d5 := by
  have hown : Groups 5 (bech32Checksum hrp d5) := by
    rw [bech32Checksum_eq]
    exact groups_groupsOf _ _
  have hsix := bech32Checksum_length hrp d5
  have heq := h.trans (polymod_checksum hrp d5).symm
  rw [← List.append_assoc, ← List.append_assoc, polymod, polymod, List.foldl_append] at heq
  rw [List.foldl_append (l := hrpExpand hrp ++ d5)] at heq
  generalize (hrpExpand hrp ++ d5).foldl polymodStep 1 = c at heq
  have hleft := foldl_polymodStep_xor c 0 sum
  have hright := foldl_polymodStep_xor c 0 (bech32Checksum hrp d5)
  rw [UInt32.xor_zero] at hleft hright
  rw [hleft, hright, hlen, hsix] at heq
  have hfold : sum.foldl polymodStep 0 = (bech32Checksum hrp d5).foldl polymodStep 0 := by
    have := congrArg ((List.replicate 6 0).foldl polymodStep c ^^^ ·) heq
    simpa only [← UInt32.xor_assoc, UInt32.xor_self, UInt32.zero_xor] using this
  refine groupValue_inj (by decide) (hlen.trans hsix.symm) hsum hown ?_
  rw [← foldl_small hsum hlen.le, ← foldl_small hown hsix.le, hfold]

/-! ## Regrouping the other way -/

/-- What regroups to bytes without a remainder is what those bytes regroup to. -/
theorem convertBits_canonical {d5 data : Bytes} (hd5 : Groups 5 d5)
    (h : convertBits d5 5 8 false = some data) : convertBits data 8 5 true = some d5 := by
  obtain ⟨g, hg, hd, hb⟩ := BitGroups.denotes_foldlM (show 8 ≤ 8 by decide)
    (show 0 < 8 by decide) (show 5 ≤ 8 by decide) hd5
  have hfin : g.finish 5 8 false = some data := by
    rw [convertBits, hg] at h
    exact h
  rw [BitGroups.finish, if_neg (by decide)] at hfin
  split at hfin
  · cases hfin
  next hok =>
    obtain ⟨hbits, hrest⟩ := not_or.mp hok
    rw [BitGroups.rest_eq hb.le (by decide), not_not] at hrest
    have hmod : g.acc % 2 ^ g.bits = 0 :=
      (Nat.mul_eq_zero.mp hrest).resolve_right (Nat.two_pow_pos _).ne'
    have hout : g.out = data := Option.some.inj hfin
    have hlen := hd.length
    have hval := hd.value
    rw [hout] at hlen hval
    rw [hmod, Nat.add_zero] at hval
    obtain ⟨out, extra, hconv, hgroups, hextra, hlen', hval'⟩ := convertBits_pad
      (show 5 ≤ 8 by decide) (show 0 < 5 by decide) (show 8 ≤ 8 by decide)
      fun v (_ : v ∈ data) => v.toNat_lt
    have hsame : extra = g.bits := by omega
    rw [hconv, groupValue_inj (by decide) (by omega) hgroups hd5 (by rw [hval', hval, hsame])]

/-! ## What is read -/

/-- A character of the charset stands at its index. -/
theorem charsetIndex_some {c v : UInt8} (h : charsetIndex c = some v) :
    v.toNat < 32 ∧ bech32Charset.getD v.toNat 0 = c := by
  rw [charsetIndex, Option.map_eq_some_iff] at h
  obtain ⟨i, hi, rfl⟩ := h
  rw [List.idxOf?, List.findIdx?_eq_some_iff_getElem] at hi
  obtain ⟨hlt, hc, -⟩ := hi
  have hlen : bech32Charset.length = 32 := by decide
  have hi : (UInt8.ofNat i).toNat = i := by
    rw [UInt8.toNat_ofNat']
    omega
  rw [hi]
  refine ⟨by omega, ?_⟩
  rw [List.getD_eq_getElem?_getD, List.getElem?_eq_getElem hlt]
  exact beq_iff_eq.mp hc

theorem mapM_charset_some {data d5 : Bytes} (h : data.mapM charsetIndex = some d5) :
    Groups 5 d5 ∧ data = charsetText d5 := by
  induction data generalizing d5 with
  | nil =>
      cases h
      exact ⟨fun v hv => (List.not_mem_nil hv).elim, rfl⟩
  | cons c data ih =>
      rw [List.mapM_cons] at h
      cases hc : charsetIndex c with
      | none => rw [hc] at h; cases h
      | some v =>
          cases hrest : data.mapM charsetIndex with
          | none => rw [hc, hrest] at h; cases h
          | some l =>
              rw [hc, hrest] at h
              cases h
              obtain ⟨hl, hdata⟩ := ih hrest
              obtain ⟨hv, hletter⟩ := charsetIndex_some hc
              refine ⟨fun x hx => ?_, ?_⟩
              · rcases List.mem_cons.mp hx with rfl | hx
                · exact hv
                · exact hl x hx
              · rw [charsetText, List.map_cons, hletter, hdata]
                rfl

/-- Where the last separator is, the text splits. -/
theorem lastSeparator_some {s : Bytes} {pos : Nat} (h : lastSeparator s = some pos) :
    pos < s.length ∧ s = s.take pos ++ [bech32Separator] ++ s.drop (pos + 1) := by
  rw [lastSeparator, Option.map_eq_some_iff] at h
  obtain ⟨i, hi, rfl⟩ := h
  rw [List.findIdx?_eq_some_iff_getElem] at hi
  obtain ⟨hlt, hc, -⟩ := hi
  rw [List.length_reverse] at hlt
  rw [List.getElem_reverse, beq_iff_eq] at hc
  have hpos : s.length - 1 - i < s.length := by omega
  refine ⟨hpos, ?_⟩
  rw [List.append_assoc, List.singleton_append, ← hc, ← List.drop_eq_getElem_cons hpos,
    List.take_append_drop]

/-- The parts a text was read from. -/
theorem bech32mDecode_some {s hrp data : Bytes} (h : bech32mDecode s = some (hrp, data)) :
    ∃ d5 sum, s.map toLower = hrp ++ [bech32Separator] ++ charsetText (d5 ++ sum) ∧
      Groups 5 d5 ∧ Groups 5 sum ∧ sum.length = 6 ∧
      polymod (hrpExpand hrp ++ (d5 ++ sum)) = bech32mConst ∧
      convertBits d5 5 8 false = some data := by
  rw [bech32mDecode] at h
  split at h
  · cases h
  simp only at h
  split at h
  · cases h
  next pos hpos =>
    split at h
    · cases h
    next hbounds =>
      split at h
      · cases h
      next groups hread =>
        obtain ⟨data', hconv, hpair⟩ := Option.map_eq_some_iff.mp h
        obtain ⟨hrp', rfl⟩ : ∃ l, l = (s.map toLower).take pos := ⟨_, rfl⟩
        cases hpair
        rw [readGroups] at hread
        split at hread
        · cases hread
        next groups' hmap =>
          split at hread
          next hsum =>
            cases hread
            obtain ⟨hgroups, htext⟩ := mapM_charset_some hmap
            obtain ⟨hlt, hsplit⟩ := lastSeparator_some hpos
            have hcount : groups.length = (s.map toLower).length - (pos + 1) := by
              rw [← List.length_drop, htext, charsetText, List.length_map]
            have hsix : 6 ≤ groups.length := by omega
            refine ⟨groups.take (groups.length - 6), groups.drop (groups.length - 6), ?_,
              fun v hv => hgroups v (List.mem_of_mem_take hv),
              fun v hv => hgroups v (List.mem_of_mem_drop hv), ?_, ?_, hconv⟩
            · rw [List.take_append_drop, ← htext]
              exact hsplit
            · rw [List.length_drop]
              omega
            · rw [List.take_append_drop]
              exact hsum
          · cases hread

/-- What is read writes back to the text, in lower case. -/
theorem bech32mEncode_decode {s hrp data : Bytes} (h : bech32mDecode s = some (hrp, data)) :
    bech32mEncode hrp data = s.map toLower := by
  obtain ⟨d5, sum, htext, hd5, hsum, hlen, hpoly, hconv⟩ := bech32mDecode_some h
  have hback := convertBits_canonical hd5 hconv
  rw [htext, checksum_unique hsum hlen hpoly, bech32mEncode, hback, charsetText_append,
    ← List.append_assoc]
  rfl

theorem charset_mem {c : UInt8} (h : c ∈ bech32Charset) :
    ∃ v : UInt8, v.toNat < 2 ^ 5 ∧ bech32Charset.getD v.toNat 0 = c := by
  obtain ⟨i, hlt, hc⟩ := List.mem_iff_getElem.mp h
  have hlen : bech32Charset.length = 32 := by decide
  have hi : (UInt8.ofNat i).toNat = i := by
    rw [UInt8.toNat_ofNat']
    omega
  refine ⟨UInt8.ofNat i, by omega, ?_⟩
  rw [hi, List.getD_eq_getElem?_getD, List.getElem?_eq_getElem hlt]
  exact hc

/-! ## A changed character -/

theorem separator_split {hrp hrp' data data' : Bytes} (hd : bech32Separator ∉ data)
    (hd' : bech32Separator ∉ data')
    (h : hrp ++ [bech32Separator] ++ data = hrp' ++ [bech32Separator] ++ data') :
    hrp = hrp' ∧ data = data' := by
  have hpos : lastSeparator (hrp ++ [bech32Separator] ++ data) = some hrp.length :=
    lastSeparator_append hd
  rw [h, lastSeparator_append hd', Option.some.injEq] at hpos
  obtain ⟨hhead, hdata⟩ := List.append_inj h (by
    rw [List.length_append, List.length_append, hpos])
  exact ⟨(List.append_inj hhead hpos.symm).1, hdata⟩

theorem charsetText_inj {a b : Bytes} (ha : Groups 5 a) (hb : Groups 5 b)
    (h : charsetText a = charsetText b) : a = b := by
  have hread := mapM_charset ha
  rw [h, mapM_charset hb] at hread
  exact (Option.some.inj hread).symm

/-- The data part of a text of this form is read, if at all, as the groups it
was written from. -/
theorem polymod_of_decode {hrp groups : Bytes} (hhrp : HrpText hrp) (hgroups : Groups 5 groups)
    (h : bech32mDecode (hrp ++ [bech32Separator] ++ charsetText groups) ≠ none) :
    polymod (hrpExpand hrp ++ groups) = bech32mConst := by
  obtain ⟨⟨hrp', data⟩, hdec⟩ := Option.ne_none_iff_exists'.mp h
  obtain ⟨d5, sum, htext, hd5, hsum, -, hpoly, -⟩ := bech32mDecode_some hdec
  have hlow : (hrp ++ [bech32Separator] ++ charsetText groups).map toLower =
      hrp ++ [bech32Separator] ++ charsetText groups := by
    rw [List.map_append, List.map_append, hhrp.map_toLower,
      (hrpText_charset hgroups).map_toLower]
    rfl
  have hread := groups_append hd5 hsum
  rw [hlow] at htext
  obtain ⟨rfl, hdata⟩ := separator_split (separator_notMem_charset hgroups)
    (separator_notMem_charset hread) htext
  rw [charsetText_inj hgroups hread hdata]
  exact hpoly

/-- One character of the data part replaced by another of the charset: the text
is not read. -/
theorem bech32mDecode_substituted {hrp data : Bytes} (hhrp : HrpText hrp) {i : Nat} {c : UInt8}
    (hi : hrp.length < i) (hlen : i < (bech32mEncode hrp data).length) (hc : c ∈ bech32Charset)
    (hne : (bech32mEncode hrp data)[i] ≠ c) :
    bech32mDecode ((bech32mEncode hrp data).set i c) = none := by
  obtain ⟨d5, -, htext, hgroups⟩ := bech32mEncode_text hrp data
  have hpoly := polymod_checksum hrp d5
  generalize d5 ++ bech32Checksum hrp d5 = groups at htext hgroups hpoly
  obtain ⟨v, hv, hletter⟩ := charset_mem hc
  obtain ⟨j, hj⟩ : ∃ j, i = hrp.length + 1 + j := ⟨i - (hrp.length + 1), by omega⟩
  have hhead : (hrp ++ [bech32Separator]).length = hrp.length + 1 := by
    rw [List.length_append, List.length_singleton]
  have hjlt : j < groups.length := by
    rw [htext, List.length_append, hhead, charsetText, List.length_map] at hlen
    omega
  have hset : (bech32mEncode hrp data).set i c =
      hrp ++ [bech32Separator] ++ charsetText (groups.set j v) := by
    rw [htext, List.set_append_right _ _ (by omega), hhead, charsetText, charsetText,
      List.map_set, hletter, hj, Nat.add_sub_cancel_left]
  have hchanged : Groups 5 (groups.set j v) := by
    intro x hx
    rcases List.mem_or_eq_of_mem_set hx with hx | rfl
    · exact hgroups x hx
    · exact hv
  by_contra hread
  rw [hset] at hread
  have hpoly' := polymod_of_decode hhrp hchanged hread
  -- the two lists of groups agree around place j
  rw [List.set_eq_take_append_cons_drop, if_pos hjlt, ← List.append_assoc] at hpoly'
  rw [← List.take_append_drop j groups, List.drop_eq_getElem_cons hjlt,
    ← List.append_assoc] at hpoly
  have hsame : groups[j] = v := polymod_single (hpoly.trans hpoly'.symm)
  refine hne ?_
  have hget : (bech32mEncode hrp data)[i]? = some (bech32Charset.getD groups[j].toNat 0) := by
    rw [htext, List.getElem?_append_right (by omega), hhead, hj, Nat.add_sub_cancel_left,
      charsetText, List.getElem?_map, List.getElem?_eq_getElem hjlt]
    rfl
  rw [List.getElem?_eq_getElem hlen, hsame, hletter] at hget
  exact Option.some.inj hget

/-! ## Addresses -/

section Addresses

variable [Crypto]

theorem hrp_injective {n m : Network} (h : (paramsFor n).hrp = (paramsFor m).hrp) : n = m := by
  cases n <;> cases m <;> first | rfl | (revert h; show textBytes _ = textBytes _ → _; decide)

omit [Crypto] in
/-- An address that a network reads is one that it writes, but for case. -/
theorem decodeAddress_some {p : ChainParams} {s : Bytes} {ver : UInt8} {addr : Hash256}
    (h : decodeAddress p s = some (ver, addr)) :
    encodeAddress p ver addr = s.map toLower ∧
      bech32mDecode s = some (p.hrp, ver :: addr.bytes) := by
  rw [decodeAddress] at h
  split at h
  · cases h
  next hrp d hdec =>
    split at h
    · cases h
    next hok =>
      rw [not_or, not_not, not_not] at hok
      obtain ⟨rfl, hlen⟩ := hok
      cases d with
      | nil => cases hlen
      | cons v rest =>
          have hbytes : (Hash256.ofBytes rest).bytes = rest :=
            ByteReader.bytes_ofBytes (Nat.succ.inj hlen)
          cases h
          rw [encodeAddress]
          simp only [List.headD_cons, List.tail_cons, hbytes]
          exact ⟨bech32mEncode_decode hdec, hdec⟩

theorem bech32m_canonical :
    (∀ hrp data, hrp ≠ [] → HrpText hrp → (bech32mEncode hrp data).length ≤ 120 →
      bech32mDecode (bech32mEncode hrp data) = some (hrp, data)) ∧
    (∀ s hrp data, bech32mDecode s = some (hrp, data) →
      bech32mEncode hrp data = s.map toLower) ∧
    (∀ hrp data i c, HrpText hrp → hrp.length < i →
      ∀ hlen : i < (bech32mEncode hrp data).length, c ∈ bech32Charset →
        (bech32mEncode hrp data)[i] ≠ c → bech32mDecode ((bech32mEncode hrp data).set i c) = none) ∧
    (∀ n ver addr,
      decodeAddress (paramsFor n) (encodeAddress (paramsFor n) ver addr) = some (ver, addr)) ∧
    ∀ n m s ver addr, n ≠ m → decodeAddress (paramsFor n) s = some (ver, addr) →
      decodeAddress (paramsFor m) s = none := by
  refine ⟨fun hrp data hne hhrp hlen => bech32mDecode_encode hne hhrp hlen,
    fun s hrp data h => bech32mEncode_decode h,
    fun hrp data i c hhrp hi hlen hc hne => bech32mDecode_substituted hhrp hi hlen hc hne,
    fun n ver addr => ?_, fun n m s ver addr hne h => ?_⟩
  · rw [decodeAddress_encode, if_pos rfl]
  · obtain ⟨-, hdec⟩ := decodeAddress_some h
    rw [decodeAddress, hdec]
    exact if_pos (Or.inl fun hhrp => hne (hrp_injective hhrp))

end Addresses

/-- A text of one byte, and the same with its first `q` turned into `p`. -/
theorem bech32m_canonical_short :
    bech32mDecode (bech32mEncode (textBytes "qnt") [0]) = some (textBytes "qnt", [0]) ∧
      bech32mDecode ((bech32mEncode (textBytes "qnt") [0]).set 4 0x70) = none := by
  let _ := plainCrypto
  obtain ⟨hround, -, hchanged, -, -⟩ := bech32m_canonical
  have hlen : (bech32mEncode (textBytes "qnt") [0]).length = 12 := by decide +kernel
  have hcharset : (0x70 : UInt8) ∈ bech32Charset := by decide +kernel
  have hletter : (bech32mEncode (textBytes "qnt") [0])[4]? = some 0x71 := by decide +kernel
  obtain ⟨htext, hne, -⟩ : HrpText (textBytes "qnt") ∧ textBytes "qnt" ≠ [] ∧ _ := hrp_text .main
  have hlt : 4 < (bech32mEncode (textBytes "qnt") [0]).length := by
    rw [hlen]
    decide
  refine ⟨hround _ _ hne htext (by rw [hlen]; decide),
    hchanged _ _ 4 0x70 htext (by decide) hlt hcharset fun he => ?_⟩
  rw [List.getElem?_eq_getElem hlt, he] at hletter
  exact absurd (Option.some.inj hletter) (by decide)

end QuantCore
