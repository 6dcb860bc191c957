import QuantCore.Crypto.Instances
import QuantCore.Lib.Bits
import QuantCore.Wallet.Mnemonic

/-!
# A seed and its phrase

The 264 bits of a seed and its check byte are thirty-three groups of eight bits
and twenty-four groups of eleven, and the two loops between them copy bit after
bit. So a phrase that is accepted is, in lower case and with single spaces, the
phrase of one seed and no other.
-/

namespace QuantCore

open BitString

/-! ## Bits of bytes -/

/-- The bits of a byte string, from the highest of the first byte on. -/
def byteBit (bits : Bytes) (k : Nat) : Bool := bitAt 8 (bits.map UInt8.toNat) k

theorem byteBit_eq (bits : Bytes) (k : Nat) :
    byteBit bits k = (bits.getD (k / 8) 0).toNat.testBit (7 - k % 8) := by
  rw [byteBit, bitAt, List.getD_eq_getElem?_getD, List.getElem?_map, List.getD_eq_getElem?_getD]
  cases bits[k / 8]? <;> rfl

theorem bytes_ext {b b' : Bytes} (hlen : b.length = b'.length)
    (h : ∀ k, k < b.length * 8 → byteBit b k = byteBit b' k) : b = b' := by
  have hbyte : ∀ b : Bytes, ∀ v ∈ b.map UInt8.toNat, v < 2 ^ 8 := by
    intro b v hv
    obtain ⟨c, -, rfl⟩ := List.mem_map.mp hv
    exact c.toNat_lt
  have hnat := BitString.ext (by decide) (by rw [List.length_map, List.length_map, hlen])
    (hbyte b) (hbyte b') (by rw [List.length_map]; exact h)
  exact List.map_injective_iff.mpr (fun x y hxy => UInt8.toNat_inj.mp hxy) hnat

/-- A group is read off the bits. -/
theorem groupAt_eq (bits : Bytes) (i : Nat) :
    groupAt bits i = readBits (fun j => byteBit bits (i * 11 + j)) 11 := by
  refine List.foldl_ext _ _ _ fun v j _ => ?_
  show _ ||| (_ >>> _ &&& (2 ^ 1 - 1)) = _ ||| (byteBit bits (i * 11 + j)).toNat
  rw [byteBit_eq, Nat.toNat_testBit, Nat.shiftRight_eq_div_pow, Nat.and_two_pow_sub_one_eq_mod]

theorem groupAt_lt (bits : Bytes) (i : Nat) : groupAt bits i < 2 ^ 11 := by
  rw [groupAt_eq]
  exact readBits_lt _ 11

/-- The twenty-four groups. -/
def groupsAt (bits : Bytes) : List Nat := (List.range 24).map (groupAt bits)

theorem bitAt_groupsAt (bits : Bytes) {k : Nat} (hk : k < 264) :
    bitAt 11 (groupsAt bits) k = byteBit bits k := by
  have hi : k / 11 < 24 := by omega
  rw [bitAt, groupsAt, List.getD_eq_getElem?_getD, List.getElem?_map, List.getElem?_range hi]
  show (groupAt bits (k / 11)).testBit (11 - 1 - k % 11) = _
  rw [groupAt_eq, testBit_readBits _ (Nat.mod_lt k (by decide)), Nat.div_add_mod']

/-! ## Writing bits -/

theorem setBit_length (bits : Bytes) (bit : Nat) : (setBit bits bit).length = bits.length :=
  List.length_modify _ _ _

theorem byteBit_setBit {bits : Bytes} {bit : Nat} (hbit : bit < bits.length * 8) (k : Nat) :
    byteBit (setBit bits bit) k = (byteBit bits k || decide (k = bit)) := by
  have hmask : (UInt8.ofNat (1 <<< (7 - bit % 8))).toNat = 2 ^ (7 - bit % 8) := by
    have hle : 2 ^ (7 - bit % 8) ≤ 2 ^ 7 := Nat.pow_le_pow_right (by decide) (Nat.sub_le _ _)
    rw [Nat.one_shiftLeft, UInt8.toNat_ofNat', Nat.mod_eq_of_lt (by omega)]
  rw [byteBit_eq, byteBit_eq, setBit, List.getD_eq_getElem?_getD, List.getElem?_modify,
    List.getD_eq_getElem?_getD]
  by_cases hbyte : bit / 8 = k / 8
  · obtain ⟨c, hc⟩ : ∃ c, bits[k / 8]? = some c :=
      ⟨_, List.getElem?_eq_getElem (by omega : k / 8 < bits.length)⟩
    rw [hc, Option.map_eq_map, Option.map_some, Option.getD_some, Option.getD_some, if_pos hbyte,
      UInt8.toNat_or, hmask, Nat.testBit_or, Nat.testBit_two_pow]
    congr 1
    rw [decide_eq_decide]
    omega
  · rw [decide_eq_false (by rintro rfl; exact hbyte rfl), Bool.or_false]
    simp only [if_neg hbyte]
    cases bits[k / 8]? <;> rfl

/-- A place's round in `mnemonic_valid`. -/
def bitStep (idx : List Nat) (bits : Bytes) (k : Nat) : Bytes :=
  if bitAt 11 idx k then setBit bits k else bits

theorem indexBits_eq (idx : List Nat) :
    indexBits idx = (List.range 264).foldl (bitStep idx) (List.replicate 33 0) := by
  rw [indexBits, ← foldl_places (bitStep idx) 24 11]
  refine List.foldl_ext _ _ _ fun bits i _ => List.foldl_ext _ _ _ fun bits j hj => ?_
  have hj := List.mem_range.mp hj
  have hdiv : (i * 11 + j) / 11 = i := by omega
  have hmod : (i * 11 + j) % 11 = j := by omega
  have hbit : ((idx.getD i 0 >>> (10 - j)) &&& 1 ≠ 0) ↔ bitAt 11 idx (i * 11 + j) = true := by
    rw [bitAt, hdiv, hmod, Nat.testBit, Nat.and_comm, bne_iff_ne]
  rw [bitStep]
  simp only [hbit]

/-- After `n` rounds the first `n` bits are those of the indices. -/
theorem bitSteps (idx : List Nat) {n : Nat} (hn : n ≤ 264) :
    let bits := (List.range n).foldl (bitStep idx) (List.replicate 33 0)
    bits.length = 33 ∧
      ∀ k, k < 264 → byteBit bits k = (decide (k < n) && bitAt 11 idx k) := by
  induction n with
  | zero =>
      refine ⟨List.length_replicate, fun k hk => ?_⟩
      rw [decide_eq_false (Nat.not_lt_zero k), Bool.false_and]
      show byteBit (List.replicate 33 0) k = false
      rw [byteBit_eq, List.getD_eq_getElem?_getD, List.getElem?_replicate,
        if_pos (by omega : k / 8 < 33)]
      exact Nat.zero_testBit _
  | succ n ih =>
      obtain ⟨hlen, hbits⟩ := ih (by omega)
      rw [List.range_succ, List.foldl_append, List.foldl_cons, List.foldl_nil]
      generalize (List.range n).foldl (bitStep idx) (List.replicate 33 0) = bits at hlen hbits
      simp only [bitStep]
      split
      · next hset =>
          refine ⟨(setBit_length bits n).trans hlen, fun k hk => ?_⟩
          rw [byteBit_setBit (by omega), hbits k hk]
          by_cases hkn : k = n
          · rw [hkn, hset, decide_eq_true (rfl : n = n), decide_eq_true (Nat.lt_succ_self n)]
            exact Bool.or_true _
          · have hlt : k < n ↔ k < n + 1 := by omega
            rw [decide_eq_false hkn, Bool.or_false, decide_eq_decide.mpr hlt]
      · next hclear =>
          refine ⟨hlen, fun k hk => ?_⟩
          rw [hbits k hk]
          by_cases hkn : k = n
          · rw [hkn, Bool.eq_false_iff.mpr hclear, Bool.and_false, Bool.and_false]
          · have hlt : k < n ↔ k < n + 1 := by omega
            rw [decide_eq_decide.mpr hlt]

theorem indexBits_length (idx : List Nat) : (indexBits idx).length = 33 := by
  rw [indexBits_eq]
  exact (bitSteps idx (Nat.le_refl 264)).1

theorem byteBit_indexBits (idx : List Nat) {k : Nat} (hk : k < 264) :
    byteBit (indexBits idx) k = bitAt 11 idx k := by
  rw [indexBits_eq, (bitSteps idx (Nat.le_refl 264)).2 k hk, decide_eq_true hk, Bool.true_and]

/-! ## The two regroupings are inverse -/

theorem indexBits_groupsAt {bits : Bytes} (hlen : bits.length = 33) :
    indexBits (groupsAt bits) = bits := by
  refine bytes_ext (by rw [indexBits_length, hlen]) fun k hk => ?_
  rw [indexBits_length] at hk
  rw [byteBit_indexBits _ hk, bitAt_groupsAt bits hk]

theorem groupsAt_length (bits : Bytes) : (groupsAt bits).length = 24 := by
  rw [groupsAt, List.length_map, List.length_range]

theorem groupsAt_lt (bits : Bytes) : ∀ v ∈ groupsAt bits, v < 2 ^ 11 := by
  intro v hv
  obtain ⟨i, -, rfl⟩ := List.mem_map.mp hv
  exact groupAt_lt bits i

theorem groupsAt_indexBits {idx : List Nat} (hlen : idx.length = 24) (h : ∀ v ∈ idx, v < 2 ^ 11) :
    groupsAt (indexBits idx) = idx := by
  refine BitString.ext (by decide) (by rw [groupsAt_length, hlen]) (groupsAt_lt _) h fun k hk => ?_
  rw [groupsAt_length] at hk
  rw [bitAt_groupsAt _ hk, byteBit_indexBits _ hk]

/-! ## Words of a phrase -/

/-- What holds of the 256 characters holds of every one. -/
theorem forall_char {p : UInt8 → Bool}
    (h : (List.range 256).all (fun n => p (UInt8.ofNat n)) = true) (c : UInt8) : p c = true := by
  have hc := List.all_eq_true.mp h c.toNat (List.mem_range.mpr c.toNat_lt)
  rwa [UInt8.ofNat_toNat] at hc

theorem isSpace_toLower (c : UInt8) : isSpace (toLower c) = isSpace c :=
  beq_iff_eq.mp (forall_char (p := fun c => isSpace (toLower c) == isSpace c) (by decide +kernel) c)

theorem lower_letter {c : UInt8} (h : isLower c = true) : toLower c = c ∧ isSpace c = false := by
  have hc := forall_char (p := fun c => !isLower c || (toLower c == c && !isSpace c))
    (by decide +kernel) c
  rw [h] at hc
  simpa using hc

/-- The words of a text, in lower case. -/
def lowerWords (s : Bytes) : List Bytes := (Words.split isSpace s).map (List.map toLower)

theorem lowerWords_isWord (s : Bytes) : ∀ w ∈ lowerWords s, Words.IsWord isSpace w := by
  intro w hw
  obtain ⟨v, hv, rfl⟩ := List.mem_map.mp hw
  obtain ⟨hne, hsep⟩ := Words.split_isWord s v hv
  refine ⟨fun h => hne (List.map_eq_nil_iff.mp h), fun c hc => ?_⟩
  obtain ⟨d, hd, rfl⟩ := List.mem_map.mp hc
  rw [isSpace_toLower, hsep d hd]

theorem mnemonicNormalize_eq (s : Bytes) :
    mnemonicNormalize s = Words.join 0x20 (lowerWords s) :=
  Words.foldl_join 0x20 fun w hw => (lowerWords_isWord s w hw).1

theorem split_normalize (s : Bytes) :
    Words.split isSpace (mnemonicNormalize s) = lowerWords s := by
  rw [mnemonicNormalize_eq]
  exact Words.split_join rfl (lowerWords_isWord s)

/-- Texts that differ in case and white space only are the same once normalized. -/
theorem normalize_alike {s t : Bytes} (h : Words.Alike isSpace toLower s t) :
    mnemonicNormalize s = mnemonicNormalize t := by
  rw [mnemonicNormalize_eq, mnemonicNormalize_eq, lowerWords, lowerWords,
    h.split_eq isSpace_toLower]

namespace WordList

variable {wl : WordList}

theorem word_mem {i : Nat} (hi : i < 2048) : wl.word i ∈ wl.words := by
  have hlt : i < wl.words.length := by rw [wl.size]; exact hi
  rw [word, List.getD_eq_getElem?_getD, List.getElem?_eq_getElem hlt]
  exact List.getElem_mem hlt

theorem word_isWord {i : Nat} (hi : i < 2048) : Words.IsWord isSpace (wl.word i) := by
  obtain ⟨hne, hlower⟩ := wl.lower _ (word_mem hi)
  exact ⟨hne, fun c hc => (lower_letter (hlower c hc)).2⟩

theorem map_toLower_word {i : Nat} (hi : i < 2048) : (wl.word i).map toLower = wl.word i := by
  obtain ⟨-, hlower⟩ := wl.lower _ (word_mem hi)
  refine (List.map_congr_left fun c hc => ?_).trans (List.map_id _)
  exact (lower_letter (hlower c hc)).1

/-- A word has the index it stands at, and no other. -/
theorem wordIndex_iff {w : Bytes} {i : Nat} :
    wl.wordIndex w = some i ↔ i < 2048 ∧ wl.word i = w := by
  have hget : ∀ h : i < wl.words.length, wl.word i = wl.words[i] := by
    intro h
    rw [word, List.getD_eq_getElem?_getD, List.getElem?_eq_getElem h]
    rfl
  rw [wordIndex, List.idxOf?_eq_some_iff]
  constructor
  · rintro ⟨hlt, hw, -⟩
    exact ⟨by rwa [wl.size] at hlt, (hget hlt).trans hw⟩
  · rintro ⟨hi, hw⟩
    have hlt : i < wl.words.length := by rw [wl.size]; exact hi
    refine ⟨hlt, (hget hlt).symm.trans hw, fun j hj hjw => ?_⟩
    have hsame : wl.words[j] = wl.words[i] := hjw.trans (hw.symm.trans (hget hlt))
    exact absurd ((wl.distinct.getElem_inj_iff).mp hsame) (by omega)

theorem mapM_wordIndex {ws : List Bytes} {idx : List Nat} :
    ws.mapM wl.wordIndex = some idx ↔ (∀ i ∈ idx, i < 2048) ∧ ws = idx.map wl.word := by
  induction ws generalizing idx with
  | nil =>
      constructor
      · rintro h
        cases h
        exact ⟨fun i hi => (List.not_mem_nil hi).elim, rfl⟩
      · rintro ⟨-, hws⟩
        rw [List.map_eq_nil_iff.mp hws.symm]
        rfl
  | cons w ws ih =>
      constructor
      · intro h
        rw [List.mapM_cons] at h
        obtain ⟨i, hi, h⟩ := Option.bind_eq_some_iff.mp h
        obtain ⟨rest, hrest, h⟩ := Option.bind_eq_some_iff.mp h
        cases h
        obtain ⟨hlt, hw⟩ := wordIndex_iff.mp hi
        obtain ⟨hall, hws⟩ := ih.mp hrest
        refine ⟨fun j hj => ?_, by rw [List.map_cons, hw, ← hws]⟩
        rcases List.mem_cons.mp hj with rfl | hj
        · exact hlt
        · exact hall j hj
      · rintro ⟨hall, hws⟩
        cases idx with
        | nil => cases hws
        | cons i idx =>
            rw [List.map_cons, List.cons.injEq] at hws
            have hi := wordIndex_iff.mpr ⟨hall i (List.mem_cons_self ..), hws.1.symm⟩
            have hrest := ih.mpr ⟨fun j hj => hall j (List.mem_cons_of_mem i hj), hws.2⟩
            rw [List.mapM_cons, hi, hrest]
            rfl

end WordList

/-! ## Phrases -/

section Phrases

variable (sha256 : Bytes → Hash256) (wl : WordList)

/-- The check byte of a seed. -/
def seedCheck (ent : Bytes) : UInt8 := (sha256 ent).bytes.headD 0

/-- A seed and its check byte. -/
def seedBits (ent : Vector UInt8 32) : Bytes := ent.toList ++ [seedCheck sha256 ent.toList]

theorem seedBits_length (ent : Vector UInt8 32) : (seedBits sha256 ent).length = 33 := by
  rw [seedBits, List.length_append, Vector.length_toList]
  rfl

theorem mnemonicEncode_eq (ent : Vector UInt8 32) : mnemonicEncode sha256 wl ent =
    Words.join 0x20 ((groupsAt (seedBits sha256 ent)).map wl.word) := by
  have hrun := Words.foldl_range_join 0x20
    (fun i => wl.word (groupAt (seedBits sha256 ent) i)) 24
  rw [groupsAt, List.map_map]
  exact hrun

theorem group_word {bits : Bytes} {w : Bytes} (hw : w ∈ (groupsAt bits).map wl.word) :
    Words.IsWord isSpace w ∧ w.map toLower = w := by
  obtain ⟨i, hi, rfl⟩ := List.mem_map.mp hw
  have hlt := groupsAt_lt bits i hi
  exact ⟨WordList.word_isWord hlt, WordList.map_toLower_word hlt⟩

theorem lowerWords_encode (ent : Vector UInt8 32) :
    lowerWords (mnemonicEncode sha256 wl ent) =
      (groupsAt (seedBits sha256 ent)).map wl.word := by
  rw [lowerWords, mnemonicEncode_eq,
    Words.split_join rfl fun w hw => (group_word wl hw).1]
  exact (List.map_congr_left fun w hw => (group_word wl hw).2).trans (List.map_id _)

/-- What `mnemonic_valid` accepts: twenty-four words of the list whose bits end
in the check byte of the seed they begin with. -/
theorem mnemonicValid_iff (s : Bytes) : mnemonicValid sha256 wl s = true ↔
    ∃ idx : List Nat, idx.length = 24 ∧ (∀ i ∈ idx, i < 2048) ∧ lowerWords s = idx.map wl.word ∧
      seedCheck sha256 ((indexBits idx).take 32) = (indexBits idx).getD 32 0 := by
  rw [mnemonicValid, split_normalize]
  constructor
  · intro h
    split at h
    · cases h
    · next idx hidx =>
        obtain ⟨hall, hws⟩ := WordList.mapM_wordIndex.mp hidx
        split at h
        · cases h
        · next hlen => exact ⟨idx, not_not.mp hlen, hall, hws, beq_iff_eq.mp h⟩
  · rintro ⟨idx, hlen, hall, hws, hcheck⟩
    rw [WordList.mapM_wordIndex.mpr ⟨hall, hws⟩]
    simp only [hlen, ne_eq, not_true_eq_false, if_false]
    exact beq_iff_eq.mpr hcheck

theorem mnemonicValid_encode (ent : Vector UInt8 32) :
    mnemonicValid sha256 wl (mnemonicEncode sha256 wl ent) = true := by
  have hlen : ent.toList.length = 32 := Vector.length_toList
  rw [mnemonicValid_iff]
  refine ⟨groupsAt (seedBits sha256 ent), groupsAt_length _, groupsAt_lt _,
    lowerWords_encode sha256 wl ent, ?_⟩
  rw [indexBits_groupsAt (seedBits_length sha256 ent), seedBits, List.take_left' hlen,
    List.getD_eq_getElem?_getD, List.getElem?_append_right (by omega), hlen]
  rfl

/-- A seed is read off its phrase. -/
theorem mnemonicEncode_injective : Function.Injective (mnemonicEncode sha256 wl) := by
  intro ent ent' h
  have hwords := congrArg lowerWords h
  rw [lowerWords_encode, lowerWords_encode] at hwords
  have hread : ∀ e : Vector UInt8 32,
      ((groupsAt (seedBits sha256 e)).map wl.word).mapM wl.wordIndex =
        some (groupsAt (seedBits sha256 e)) :=
    fun e => WordList.mapM_wordIndex.mpr ⟨groupsAt_lt _, rfl⟩
  have hgroups := hread ent
  rw [hwords, hread ent', Option.some.injEq] at hgroups
  have hbits := indexBits_groupsAt (seedBits_length sha256 ent)
  rw [← hgroups, indexBits_groupsAt (seedBits_length sha256 ent')] at hbits
  have hlen : ent.toList.length = ent'.toList.length := by
    rw [Vector.length_toList, Vector.length_toList]
  exact Vector.toList_inj.mp (List.append_inj hbits hlen.symm).1.symm

/-- A phrase that is accepted is that of a seed. -/
theorem encode_of_valid {s : Bytes} (h : mnemonicValid sha256 wl s = true) :
    ∃ ent, mnemonicEncode sha256 wl ent = mnemonicNormalize s := by
  obtain ⟨idx, hlen, hall, hws, hcheck⟩ := (mnemonicValid_iff sha256 wl s).mp h
  have hbits := indexBits_length idx
  have hseed : ((indexBits idx).take 32).length = 32 := by
    rw [List.length_take, hbits]
    rfl
  have hlast : (indexBits idx).drop 32 = [(indexBits idx).getD 32 0] := by
    rw [List.drop_eq_getElem_cons (by omega), List.drop_of_length_le (by omega),
      List.getD_eq_getElem?_getD, List.getElem?_eq_getElem (by omega)]
    rfl
  obtain ⟨ent, hent⟩ : ∃ ent : Vector UInt8 32, ent.toList = (indexBits idx).take 32 :=
    ⟨⟨⟨(indexBits idx).take 32⟩, hseed⟩, rfl⟩
  refine ⟨ent, ?_⟩
  have hsum : seedBits sha256 ent = indexBits idx := by
    rw [seedBits, hent, hcheck, ← hlast, List.take_append_drop]
  rw [mnemonicEncode_eq, hsum, groupsAt_indexBits hlen hall, mnemonicNormalize_eq, hws]

end Phrases

/-- Phrases and seeds correspond, and neither acceptance nor the master key
depends on case and white space. -/
theorem seed_phrases [Crypto] (sha256 : Bytes → Hash256) (wl : WordList) :
    (∀ ent, mnemonicValid sha256 wl (mnemonicEncode sha256 wl ent) = true) ∧
    (∀ s, mnemonicValid sha256 wl s = true →
      ∃! ent, mnemonicEncode sha256 wl ent = mnemonicNormalize s) ∧
    ∀ s t, Words.Alike isSpace toLower s t →
      mnemonicValid sha256 wl s = mnemonicValid sha256 wl t ∧
        ∀ passphrase, mnemonicToMaster s passphrase = mnemonicToMaster t passphrase := by
  refine ⟨mnemonicValid_encode sha256 wl, fun s h => ?_, fun s t h => ?_⟩
  · obtain ⟨ent, hent⟩ := encode_of_valid sha256 wl h
    exact ⟨ent, hent, fun ent' hent' =>
      mnemonicEncode_injective sha256 wl (hent'.trans hent.symm)⟩
  · have hsame := normalize_alike h
    refine ⟨?_, fun passphrase => ?_⟩
    · rw [mnemonicValid, mnemonicValid, hsame]
    · rw [mnemonicToMaster, mnemonicToMaster, hsame]

/-- A list to compute with: the numbers below 2048 in the letters `a` and `b`. -/
def letterWords : WordList where
  words := (List.range 2048).map fun n =>
    (List.range 11).map fun j => if n.testBit (10 - j) then 0x62 else 0x61
  size := by rw [List.length_map, List.length_range]
  distinct := by
    refine List.Nodup.map_on (fun n hn m hm h => Nat.eq_of_testBit_eq fun b => ?_)
      List.nodup_range
    have hn := List.mem_range.mp hn
    have hm := List.mem_range.mp hm
    rcases Nat.lt_or_ge b 11 with hb | hb
    · have hletter := congrArg (fun w : Bytes => w[10 - b]?) h
      simp only [List.getElem?_map, List.getElem?_range (by omega : 10 - b < 11), Option.map_some,
        Option.some.injEq, show 10 - (10 - b) = b by omega] at hletter
      cases hbn : n.testBit b <;> cases hbm : m.testBit b <;> rw [hbn, hbm] at hletter <;>
        first | rfl | exact absurd hletter (by decide)
    · have hpow : 2 ^ 11 ≤ 2 ^ b := Nat.pow_le_pow_right (by decide) hb
      rw [Nat.testBit_lt_two_pow (by omega), Nat.testBit_lt_two_pow (by omega)]
  lower := by
    intro w hw
    obtain ⟨n, -, rfl⟩ := List.mem_map.mp hw
    refine ⟨fun h => ?_, fun c hc => ?_⟩
    · rw [List.map_eq_nil_iff] at h
      cases h
    · obtain ⟨j, -, rfl⟩ := List.mem_map.mp hc
      split <;> decide

/-- The phrase of the seed of zeros, with and without a space in front. -/
theorem seed_phrases_zero :
    let sha256 : Bytes → Hash256 := fun _ => 0
    let phrase := mnemonicEncode sha256 letterWords (Vector.replicate 32 0)
    mnemonicValid sha256 letterWords phrase = true ∧
      (∃! ent, mnemonicEncode sha256 letterWords ent = mnemonicNormalize phrase) ∧
      mnemonicValid sha256 letterWords ([0x20] ++ phrase) = true := by
  let _ := plainCrypto
  obtain ⟨hvalid, hseed, halike⟩ := seed_phrases (fun _ => 0) letterWords
  have hfront := (halike _ _ (.front
    (mnemonicEncode (fun _ => 0) letterWords (Vector.replicate 32 0)) (u := [0x20]) ?_)).1
  · exact ⟨hvalid _, hseed _ (hvalid _), hfront.trans (hvalid _)⟩
  · intro c hc
    rw [List.mem_singleton.mp hc]
    rfl

end QuantCore
