import QuantCore.Miner.Header
import QuantCore.Proofs.Retarget

/-!
# Mining and validation agree

The miner works on bytes where validation works on numbers. Thirty-two bytes
written most significant first are in the order of the numbers they write, so the
comparison of the hash with the target is the one `check_pow` makes; and the
nonce is the last field of a header, so writing it over the last eight bytes
serializes the header that has it. The loop then tries the nonces in turn.
-/

namespace QuantCore

/-! ## Bytes as digits -/

theorem ofLeBytes_append (a b : Bytes) :
    ofLeBytes (a ++ b) = ofLeBytes a + 256 ^ a.length * ofLeBytes b := by
  induction a with
  | nil =>
      rw [List.nil_append, List.length_nil, Nat.pow_zero, Nat.one_mul]
      exact (Nat.zero_add _).symm
  | cons c a ih =>
      rw [List.cons_append, ofLeBytes, ofLeBytes, ih, List.length_cons, Nat.pow_succ', Nat.mul_add,
        Nat.mul_assoc, Nat.add_assoc]

theorem ofLeBytes_reverse (b : Bytes) :
    ofLeBytes b.reverse = Numeral.value UInt8.toNat 256 b := by
  induction b with
  | nil => rfl
  | cons c b ih =>
      rw [List.reverse_cons, ofLeBytes_append, ih, Numeral.value, List.length_reverse, ofLeBytes,
        ofLeBytes, Nat.mul_zero, Nat.add_zero, Nat.mul_comm, Nat.add_comm]

theorem value_bytes (h : Hash256) : Numeral.value UInt8.toNat 256 h.bytes = h.toNat := by
  have hpow : (256 : Nat) ^ 32 = 2 ^ 256 := by decide
  rw [← ofLeBytes_reverse, Hash256.bytes, List.reverse_reverse, ofLeBytes_leBytes, hpow,
    Nat.mod_eq_of_lt h.isLt]

/-- The bytes of two hashes are in the order of the hashes. -/
theorem memcmp_bytes (h t : Hash256) : memcmp h.bytes t.bytes 32 = compare h.toNat t.toNat := by
  have hall : ∀ x : Hash256, x.bytes.take 32 = x.bytes :=
    fun x => List.take_of_length_le (Nat.le_of_eq x.bytes_length)
  rw [memcmp, hall, hall, Numeral.firstDiff_eq_compare UInt8.toNat_lt
    (fun _ _ => UInt8.lt_iff_toNat_lt) (fun _ _ => UInt8.toNat.inj)
    (h.bytes_length.trans t.bytes_length.symm), value_bytes, value_bytes]

/-- One byte of a word. -/
theorem shiftByte (w : UInt64) {k : Nat} (hk : k < 8) :
    (w >>> UInt64.ofNat (8 * k)).toUInt8 = UInt8.ofNat (w.toNat / 256 ^ k) := by
  have hs : (UInt64.ofNat (8 * k)).toNat % 64 = 8 * k := by
    rw [UInt64.toNat_ofNat']
    omega
  have hpow : (256 : Nat) ^ k = 2 ^ (8 * k) := (Nat.pow_mul 2 8 k).symm
  rw [← UInt8.toNat_inj, UInt64.toNat_toUInt8, UInt64.toNat_shiftRight, hs, UInt8.toNat_ofNat',
    hpow, Nat.shiftRight_eq_div_pow]

theorem leBytes_eq_map (n v : Nat) :
    leBytes n v = (List.range n).map fun k => UInt8.ofNat (v / 256 ^ k) := by
  induction n generalizing v with
  | zero => rfl
  | succ n ih =>
      rw [leBytes, ih, List.range_succ_eq_map, List.map_cons, List.map_map, Nat.pow_zero,
        Nat.div_one]
      refine congrArg _ (List.map_congr_left fun k _ => ?_)
      rw [Function.comp_apply, Nat.div_div_eq_div_mul, Nat.pow_succ']

namespace U256

/-- A byte into its place, below the bytes that are there. -/
theorem orByte_toNat {r : U256} {p m : Nat} (hp : p < 32) (b : UInt8)
    (hr : r.toNat = m * 256 ^ (p + 1)) :
    (orLimb r (p / 8) (b.toUInt64 <<< UInt64.ofNat (8 * (p % 8)))).toNat =
      r.toNat + b.toNat * 256 ^ p := by
  have hb := b.toNat_lt
  have hs : (UInt64.ofNat (8 * (p % 8))).toNat % 64 = 8 * (p % 8) := by
    rw [UInt64.toNat_ofNat']
    omega
  have hshift : (b.toUInt64 <<< UInt64.ofNat (8 * (p % 8))).toNat = b.toNat * 2 ^ (8 * (p % 8)) := by
    have hlt : b.toNat * 2 ^ (8 * (p % 8)) < 2 ^ 64 :=
      calc b.toNat * 2 ^ (8 * (p % 8)) < 2 ^ 8 * 2 ^ (8 * (p % 8)) :=
            Nat.mul_lt_mul_of_pos_right hb (Nat.two_pow_pos _)
        _ = 2 ^ (8 + 8 * (p % 8)) := (Nat.pow_add ..).symm
        _ ≤ 2 ^ 64 := Nat.pow_le_pow_right (by decide) (by omega)
    rw [UInt64.toNat_shiftLeft, hs, Nat.shiftLeft_eq, UInt8.toNat_toUInt64, Nat.mod_eq_of_lt hlt]
  have hpow : ∀ k, (256 : Nat) ^ k = 2 ^ (8 * k) := fun k => (Nat.pow_mul 2 8 k).symm
  have hplace : (b.toNat * 2 ^ (8 * (p % 8))) <<< (64 * (p / 8)) = b.toNat * 2 ^ (8 * p) := by
    rw [Nat.shiftLeft_eq, Nat.mul_assoc, ← Nat.pow_add]
    congr 2
    omega
  have hlow : b.toNat * 2 ^ (8 * p) < 2 ^ (8 * (p + 1)) :=
    calc b.toNat * 2 ^ (8 * p) < 2 ^ 8 * 2 ^ (8 * p) :=
          Nat.mul_lt_mul_of_pos_right hb (Nat.two_pow_pos _)
      _ = 2 ^ (8 * (p + 1)) := by rw [← Nat.pow_add, Nat.mul_succ, Nat.add_comm]
  rw [orLimb_toNat (by omega), hshift, hplace, hr, hpow, hpow, Nat.mul_comm m,
    Nat.two_pow_add_eq_or_of_lt hlow]

theorem fromHashLoop_toNat {i : Nat} {bs : Bytes} (hi : i + bs.length = 32) {r : U256} {m : Nat}
    (hr : r.toNat = m * 256 ^ bs.length) :
    (fromHashLoop i bs r).toNat = r.toNat + Numeral.value UInt8.toNat 256 bs := by
  induction bs generalizing i r m with
  | nil => exact (Nat.add_zero _).symm
  | cons b bs ih =>
      rw [List.length_cons] at hi hr
      have hp : 31 - i = bs.length := by omega
      have hbyte := orByte_toNat (by omega) b hr
      rw [fromHashLoop, hp, ih (m := m * 256 + b.toNat) (by omega) ?_, hbyte, Numeral.value,
        Nat.add_assoc]
      rw [hbyte, hr, Nat.pow_succ', Nat.add_mul, Nat.mul_assoc]

theorem fromHashLoop_bytes (h : Hash256) : (fromHashLoop 0 h.bytes {}).toNat = h.toNat := by
  have hzero : ({} : U256).toNat = 0 := rfl
  rw [fromHashLoop_toNat (m := 0) (by rw [Hash256.bytes_length]) (by rw [hzero, Nat.zero_mul]),
    hzero, Nat.zero_add, value_bytes]

/-- The loop of `from_hash` puts the bytes of the hash where the number has them. -/
theorem fromHash_eq_loop (h : Hash256) : fromHash h = fromHashLoop 0 h.bytes {} := by
  rw [fromHash, ← fromHashLoop_bytes, ofNat_toNat]

theorem fromHash_toNat (h : Hash256) : (fromHash h).toNat = h.toNat := by
  rw [fromHash_eq_loop, fromHashLoop_bytes]

/-- Byte `p` of the number, from the limb that holds it. -/
theorem limbByte (a : U256) (p : Nat) :
    (a.limb (p / 8) >>> UInt64.ofNat (8 * (p % 8))).toUInt8 = UInt8.ofNat (a.toNat / 256 ^ p) := by
  have hpow : ∀ k, (256 : Nat) ^ k = 2 ^ (8 * k) := fun k => (Nat.pow_mul 2 8 k).symm
  rw [shiftByte _ (Nat.mod_lt p (by decide)), ← UInt8.toNat_inj, UInt8.toNat_ofNat',
    UInt8.toNat_ofNat', hpow, hpow]
  refine Nat.eq_of_testBit_eq fun j => ?_
  rw [Nat.testBit_mod_two_pow, Nat.testBit_mod_two_pow, Nat.testBit_div_two_pow,
    Nat.testBit_div_two_pow, testBit_toNat]
  by_cases hj : j < 8
  · rw [show (j + 8 * p) / 64 = p / 8 by omega, show (j + 8 * p) % 64 = j + 8 * (p % 8) by omega]
  · rw [decide_eq_false hj, Bool.false_and, Bool.false_and]

theorem toHash_toNat (a : U256) : a.toHash.toNat = a.toNat := by
  have hrev : ((List.range 32).map fun i =>
      (a.limb ((31 - i) / 8) >>> UInt64.ofNat (8 * ((31 - i) % 8))).toUInt8).reverse =
        leBytes 32 a.toNat := by
    rw [leBytes_eq_map]
    simp only [limbByte]
    rfl
  have hpow : (256 : Nat) ^ 32 = 2 ^ 256 := by decide
  rw [toHash, Hash256.ofBytes, hrev, ofLeBytes_leBytes, BitVec.toNat_ofNat, hpow, Nat.mod_mod,
    Nat.mod_eq_of_lt a.toNat_lt]

end U256

/-! ## Grinding -/

/-- The bytewise comparison is the one `check_pow` makes. -/
theorem hashLeTarget_eq_checkPow {p : ChainParams} {bits : UInt32} (h : ValidBits p bits)
    (hash : Hash256) :
    hashLeTarget hash.bytes (U256.ofCompact bits).toHash.bytes = checkPow hash bits p := by
  rw [h.checkPow_eq, Bool.eq_iff_iff, hashLeTarget, memcmp_bytes, bne_iff_ne, ne_eq,
    Nat.compare_eq_gt, Nat.not_lt, U256.le_iff, U256.toHash_toNat, U256.fromHash_toNat]

/-- Bytes written one by one over what follows a prefix. -/
theorem foldl_set_append (f : Nat → UInt8) (front back : Bytes) {n : Nat} (hn : n ≤ back.length) :
    (List.range n).foldl (fun buf k => buf.set (front.length + k) (f k)) (front ++ back) =
      front ++ ((List.range n).map f ++ back.drop n) := by
  induction n with
  | zero => rfl
  | succ n ih =>
      have hlen : ((List.range n).map f).length = n := by
        rw [List.length_map, List.length_range]
      rw [List.range_succ, List.foldl_append, ih (by omega), List.foldl_cons, List.foldl_nil,
        List.set_append_right _ _ (by omega), Nat.add_sub_cancel_left,
        List.set_append_right _ _ (by omega), hlen, Nat.sub_self, List.drop_eq_getElem_cons hn,
        List.set_cons_zero, List.map_append, List.append_assoc]
      rfl

/-- What a header serializes before its nonce. -/
def BlockHeader.front (h : BlockHeader) : Bytes :=
  Writer.u32le h.version ++ Writer.hash h.prev ++ Writer.hash h.merkleRoot ++
    Writer.hash h.witnessRoot ++ Writer.hash h.stateCommit ++
    Writer.u64le h.time ++ Writer.u32le h.bits

theorem BlockHeader.front_length (h : BlockHeader) : h.front.length = BlockHeader.size - 8 := by
  simp only [front, List.length_append, Writer.u32le, Writer.u64le, Writer.hash, leBytes_length,
    Hash256.bytes_length, size]

theorem BlockHeader.write_eq_front (h : BlockHeader) (n : UInt64) :
    ({ h with nonce := n } : BlockHeader).write = h.front ++ leBytes 8 n.toNat := rfl

/-- The patched bytes are the bytes of the header with that nonce. -/
theorem patchNonce_write (h : BlockHeader) (m n : UInt64) :
    patchNonce ({ h with nonce := m } : BlockHeader).write n =
      ({ h with nonce := n } : BlockHeader).write := by
  have hbytes : (List.range 8).map (fun k => (n >>> UInt64.ofNat (8 * k)).toUInt8) =
      leBytes 8 n.toNat := by
    rw [leBytes_eq_map]
    exact List.map_congr_left fun k hk => shiftByte n (List.mem_range.mp hk)
  have hlen := leBytes_length 8 m.toNat
  rw [h.write_eq_front, h.write_eq_front, patchNonce, ← h.front_length,
    foldl_set_append _ _ _ (Nat.le_of_eq hlen.symm), hbytes,
    List.drop_of_length_le (Nat.le_of_eq hlen), List.append_nil]

theorem add_ofNat_zero (i : UInt64) : i + UInt64.ofNat 0 = i := UInt64.add_zero i

theorem add_ofNat_succ (i : UInt64) (j : Nat) :
    i + UInt64.ofNat (j + 1) = i + 1 + UInt64.ofNat j := by
  rw [UInt64.ofNat_add, UInt64.add_assoc, UInt64.add_comm 1]
  rfl

section

variable [Crypto] {target : Hash256} {nonce : UInt64} {stop : Option (UInt64 → Bool)}

/-- Whether the header with this nonce is found. -/
def hit (target : Hash256) (h : BlockHeader) (n : UInt64) : Bool :=
  hashLeTarget ({ h with nonce := n } : BlockHeader).hash.bytes target.bytes

/-- A round on the bytes is a round on the header. -/
theorem mineLoop_succ (h : BlockHeader) (rounds : Nat) (i m : UInt64) :
    mineLoop target nonce stop (rounds + 1) i ({ h with nonce := m } : BlockHeader).write =
      if stop.any fun flag => i &&& 0xffff == 0 && flag i then none
      else if hit target h (nonce + i) then some (nonce + i)
      else mineLoop target nonce stop rounds (i + 1)
        ({ h with nonce := nonce + i } : BlockHeader).write := by
  simp only [mineLoop, patchNonce_write]
  rfl

/-- The nonce that the loop ends with is one of those it had left, and a hit. -/
theorem mineLoop_some {h : BlockHeader} {rounds : Nat} {i m n : UInt64}
    (hn : mineLoop target nonce stop rounds i ({ h with nonce := m } : BlockHeader).write = some n) :
    hit target h n = true ∧ ∃ j < rounds, n = nonce + (i + UInt64.ofNat j) := by
  induction rounds generalizing i m with
  | zero => cases hn
  | succ rounds ih =>
      rw [mineLoop_succ] at hn
      split at hn
      · cases hn
      split at hn
      · next hhit =>
          cases hn
          exact ⟨hhit, 0, Nat.succ_pos _, by rw [add_ofNat_zero]⟩
      · obtain ⟨hhit, j, hj, rfl⟩ := ih hn
        exact ⟨hhit, j + 1, Nat.succ_lt_succ hj, by rw [add_ofNat_succ]⟩

/-- The loop gives up, unless it is stopped, after a miss at every nonce. -/
theorem mineLoop_none {h : BlockHeader} {rounds : Nat} {i m : UInt64}
    (hstop : ∀ flag ∈ stop, ∀ j < rounds, flag (i + UInt64.ofNat j) = false)
    (hn : mineLoop target nonce stop rounds i ({ h with nonce := m } : BlockHeader).write = none) :
    ∀ j < rounds, hit target h (nonce + (i + UInt64.ofNat j)) = false := by
  induction rounds generalizing i m with
  | zero => exact fun j hj => absurd hj (Nat.not_lt_zero j)
  | succ rounds ih =>
      have hrun : (stop.any fun flag => i &&& 0xffff == 0 && flag i) = false := by
        cases stop with
        | none => rfl
        | some flag =>
            have hflag := hstop flag rfl 0 (Nat.succ_pos _)
            rw [add_ofNat_zero] at hflag
            rw [Option.any_some, hflag, Bool.and_false]
      rw [mineLoop_succ, hrun, if_neg Bool.false_ne_true] at hn
      split at hn
      · cases hn
      · next hmiss =>
          have hrest := ih (fun flag hf j hj => by
            rw [← add_ofNat_succ]
            exact hstop flag hf (j + 1) (Nat.succ_lt_succ hj)) hn
          intro j hj
          cases j with
          | zero =>
              rw [add_ofNat_zero]
              exact Bool.eq_false_iff.mpr hmiss
          | succ j =>
              rw [add_ofNat_succ]
              exact hrest j (Nat.lt_of_succ_lt_succ hj)

end

section

variable [Crypto]

/-- A header that is found passes the check, and is the one given but for the
nonce; when none is found and nobody stops the search, none of the nonces tried
passes. Each round's bytes are those of the header with its nonce, and the
comparison of bytes is the comparison of numbers. -/
theorem mineHeader_agrees {h : BlockHeader} {p : ChainParams} (hbits : ValidBits p h.bits)
    (maxTries : UInt64) (stop : Option (UInt64 → Bool)) :
    (∀ h', mineHeader h maxTries stop = (true, h') → checkPow h'.hash h'.bits p = true ∧
      ∃ i < maxTries, h' = { h with nonce := h.nonce + i }) ∧
    ((∀ flag ∈ stop, ∀ i < maxTries, flag i = false) → (mineHeader h maxTries stop).1 = false →
      ∀ i < maxTries,
        checkPow ({ h with nonce := h.nonce + i } : BlockHeader).hash h.bits p = false) ∧
    ∀ m n, let buf := patchNonce ({ h with nonce := m } : BlockHeader).write n
      buf = ({ h with nonce := n } : BlockHeader).write ∧
      hashLeTarget (blake3 buf).bytes (U256.ofCompact h.bits).toHash.bytes =
        checkPow ({ h with nonce := n } : BlockHeader).hash h.bits p := by
  have hcheck : ∀ n, hit (U256.ofCompact h.bits).toHash h n =
      checkPow ({ h with nonce := n } : BlockHeader).hash h.bits p :=
    fun n => hashLeTarget_eq_checkPow hbits _
  refine ⟨fun h' hfound => ?_, fun hstop hnone i hi => ?_, fun m n => ?_⟩
  · rw [mineHeader] at hfound
    split at hfound
    · next n hn =>
        cases hfound
        obtain ⟨hhit, j, hj, rfl⟩ := mineLoop_some (m := h.nonce) hn
        rw [UInt64.zero_add] at hhit ⊢
        refine ⟨(hcheck _).symm.trans hhit, UInt64.ofNat j, ?_, rfl⟩
        rw [UInt64.lt_iff_toNat_lt, UInt64.toNat_ofNat']
        exact Nat.lt_of_le_of_lt (Nat.mod_le _ _) hj
    · cases hfound
  · rw [mineHeader] at hnone
    split at hnone
    · cases hnone
    · next hn =>
        have hflag : ∀ flag ∈ stop, ∀ j < maxTries.toNat, flag (0 + UInt64.ofNat j) = false := by
          intro flag hf j hj
          refine hstop flag hf _ ?_
          rw [UInt64.zero_add, UInt64.lt_iff_toNat_lt, UInt64.toNat_ofNat']
          exact Nat.lt_of_le_of_lt (Nat.mod_le _ _) hj
        have hmiss := mineLoop_none (m := h.nonce) hflag hn i.toNat
          (UInt64.lt_iff_toNat_lt.mp hi)
        rw [UInt64.zero_add, UInt64.ofNat_toNat, hcheck] at hmiss
        exact hmiss
  · have hpatch := patchNonce_write h m n
    refine ⟨hpatch, ?_⟩
    rw [hpatch]
    exact hcheck n

end

/-- The search starts at the last nonce and finds the first. -/
theorem mineHeader_agrees_wraps :
    letI := nonceCrypto
    let h : BlockHeader := { bits := 0x01010000, nonce := 0xffffffffffffffff }
    ValidBits (paramsFor .regtest) h.bits ∧
      checkPow ({ h with nonce := 0 } : BlockHeader).hash h.bits (paramsFor .regtest) = true := by
  let _ := nonceCrypto
  have hbits : ValidBits (paramsFor .regtest) 0x01010000 := ⟨rfl, rfl, by decide, by decide⟩
  have hfound : mineHeader { bits := 0x01010000, nonce := 0xffffffffffffffff } 3 none =
      (true, { bits := 0x01010000 }) := by decide
  exact ⟨hbits, ((mineHeader_agrees hbits 3 none).1 _ hfound).1⟩

end QuantCore
