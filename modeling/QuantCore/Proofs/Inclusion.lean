import Mathlib.Data.Nat.Bitwise
import QuantCore.Proofs.Merkle

/-!
# Proofs of inclusion

`merkle_proof` collects one sibling for each level, zero where a node is carried
unchanged, and `merkle_verify` climbs back along them. For the list's own length
the two walk the same levels, so a proof made of the list is accepted, and what
is accepted is that proof of that leaf; for another length what is accepted is
still one of the leaves.
-/

namespace QuantCore

open Merkle

/-! ## One level -/

theorem xor_one_add_two (i : Nat) : (i + 2) ^^^ 1 = (i ^^^ 1) + 2 := by
  rcases Nat.even_or_odd i with h | h
  · rw [Nat.xor_one_of_even h, Nat.xor_one_of_even (h.add (by decide))]
  · have hodd := Nat.odd_iff.mp h
    rw [Nat.xor_one_of_odd h, Nat.xor_one_of_odd (h.add_even (by decide))]
    omega

variable [Crypto]

/-- The value one level up from the index `i`: the hash of the pair it is in, or
the value itself where it has no sibling. -/
theorem merkleLevel_getElem? (l : List Hash256) {i : Nat} {x : Hash256} (hx : l[i]? = some x) :
    (merkleLevel l)[i / 2]? = some
      (if i ^^^ 1 < l.length then
        if i % 2 = 1 then merkleNode (l.getD (i ^^^ 1) 0) x
        else merkleNode x (l.getD (i ^^^ 1) 0)
      else x) := by
  induction l using merkleLevel.induct generalizing i with
  | case1 a b rest ih =>
      rw [merkleLevel]
      rcases i with _ | _ | i
      · cases hx
        rfl
      · cases hx
        rfl
      · rw [List.getElem?_cons_succ, List.getElem?_cons_succ] at hx
        have h := ih hx
        have hdiv : (i + 1 + 1) / 2 = i / 2 + 1 := by omega
        have hmod : (i + 1 + 1) % 2 = i % 2 := by omega
        rw [xor_one_add_two, hdiv, hmod, List.getElem?_cons_succ, h]
        simp only [List.length_cons, List.getD_cons_succ, Nat.add_lt_add_iff_right]
  | case2 l hnot =>
      rw [merkleLevel.eq_2 l hnot]
      cases l with
      | nil => cases hx
      | cons a l =>
          cases l with
          | nil =>
              have hi : i = 0 := by
                have := (List.getElem?_eq_some_iff.mp hx).1
                rw [List.length_singleton] at this
                omega
              subst hi
              exact hx
          | cons b l => exact absurd rfl (hnot a b l)

/-- The value one level up, from the value `x` at the index `i`. -/
def climb (l : List Hash256) (i : Nat) (sibling x : Hash256) : Hash256 :=
  if i ^^^ 1 < l.length then
    if i % 2 = 1 then merkleNode sibling x else merkleNode x sibling
  else x

/-- One round of the verifier on a list of the length it was told. -/
theorem verifyLoop_cons {l : List Hash256} (hl : 1 < l.length) (sibling : Hash256)
    (proof : List Hash256) (i : Nat) (x : Hash256) :
    merkleVerifyLoop (sibling :: proof) i l.length x =
      if i ^^^ 1 < l.length ∨ sibling.isZero then
        merkleVerifyLoop proof (i / 2) (merkleLevel l).length (climb l i sibling x)
      else none := by
  rw [merkleVerifyLoop, if_pos hl, merkleLevel_length, climb]
  by_cases h : i ^^^ 1 < l.length
  · rw [if_pos h, if_pos h, if_pos (Or.inl h)]
  · rw [if_neg h, if_neg h]
    by_cases hz : sibling.isZero = true
    · rw [if_pos hz, if_pos (Or.inr hz)]
    · rw [if_neg hz, if_neg (fun hor => hor.elim h hz)]

/-- The rounds that are left after one level. -/
theorem merkleLoop_level (k : Nat) {l : List Hash256} (hl : 1 < l.length) :
    merkleLoop (k + 1) l = merkleLoop k (merkleLevel l) := by
  rcases l with _ | ⟨a, _ | ⟨b, l⟩⟩
  · rw [List.length_nil] at hl
    omega
  · rw [List.length_singleton] at hl
    omega
  · rfl

theorem merkleProofLoop_level (k : Nat) {l : List Hash256} (hl : 1 < l.length) (i : Nat) :
    merkleProofLoop (k + 1) l i =
      l.getD (i ^^^ 1) 0 :: merkleProofLoop k (merkleLevel l) (i / 2) := by
  rcases l with _ | ⟨a, _ | ⟨b, l⟩⟩
  · rw [List.length_nil] at hl
    omega
  · rw [List.length_singleton] at hl
    omega
  · rfl

theorem merkleLoopPairs_level (k : Nat) (l : List Hash256) :
    merkleLoopPairs (k + 1) l = levelPairs l ++ merkleLoopPairs k (merkleLevel l) := rfl

theorem merkleLoop_single {k : Nat} {l : List Hash256} (hl : ¬ 1 < l.length) {i : Nat}
    {x : Hash256} (hx : l[i]? = some x) : merkleLoop k l = x ∧ i = 0 := by
  rcases l with _ | ⟨a, _ | ⟨b, l⟩⟩
  · cases hx
  · have hi := (List.getElem?_eq_some_iff.mp hx).1
    rw [List.length_singleton] at hi
    have hi : i = 0 := by omega
    subst hi
    cases hx
    cases k <;> exact ⟨rfl, rfl⟩
  · rw [List.length_cons, List.length_cons] at hl
    omega

omit [Crypto] in
theorem getD_sibling {l : List Hash256} {i : Nat} (h : ¬ i ^^^ 1 < l.length) :
    l.getD (i ^^^ 1) 0 = 0 :=
  List.getD_eq_default _ _ (Nat.le_of_not_lt h)

/-! ## Completeness -/

/-- The verifier climbs from a leaf to the root along the proof the list gives. -/
theorem verifyLoop_proof (k : Nat) {l : List Hash256} (hk : l.length ≤ k) {i : Nat}
    {x : Hash256} (hx : l[i]? = some x) :
    merkleVerifyLoop (merkleProofLoop k l i) i l.length x = some (merkleLoop k l) := by
  induction k generalizing l i x with
  | zero =>
      rw [List.length_eq_zero_iff.mp (Nat.le_zero.mp hk)] at hx
      cases hx
  | succ k ih =>
      by_cases hl : 1 < l.length
      · have hlevel := merkleLevel_getElem? l hx
        have hlen : (merkleLevel l).length ≤ k := by
          rw [merkleLevel_length]
          omega
        rw [merkleProofLoop_level k hl, merkleLoop_level k hl, verifyLoop_cons hl, if_pos]
        · exact ih hlen hlevel
        · by_cases hs : i ^^^ 1 < l.length
          · exact .inl hs
          · right
            rw [getD_sibling hs]
            rfl
      · obtain ⟨hroot, rfl⟩ := merkleLoop_single hl hx
        rw [hroot]
        rcases l with _ | ⟨a, _ | ⟨b, l⟩⟩
        · cases hx
        · rfl
        · rw [List.length_cons, List.length_cons] at hl
          omega

/-! ## What is accepted -/

/-- A value and its sibling, in the order they are hashed in. -/
def ordered (i : Nat) (sibling x : Hash256) : Hash256 × Hash256 :=
  if i % 2 = 1 then (sibling, x) else (x, sibling)

omit [Crypto] in
theorem ordered_inj {i : Nat} {a b x y : Hash256} (h : ordered i a x = ordered i b y) :
    x = y ∧ a = b := by
  rw [ordered, ordered] at h
  split at h
  · exact ⟨congrArg Prod.snd h, congrArg Prod.fst h⟩
  · exact ⟨congrArg Prod.fst h, congrArg Prod.snd h⟩

theorem climb_of_sibling {l : List Hash256} {i : Nat} (h : i ^^^ 1 < l.length)
    (sibling x : Hash256) :
    climb l i sibling x = merkleNode (ordered i sibling x).1 (ordered i sibling x).2 := by
  rw [climb, if_pos h, ordered]
  split <;> rfl

theorem verifyPairs_cons {l : List Hash256} (hl : 1 < l.length) (sibling : Hash256)
    (proof : List Hash256) (i : Nat) (x : Hash256) :
    merkleVerifyPairs (sibling :: proof) i l.length x =
      (if i ^^^ 1 < l.length then [ordered i sibling x] else []) ++
        merkleVerifyPairs proof (i / 2) (merkleLevel l).length (climb l i sibling x) := by
  rw [merkleVerifyPairs, if_pos hl, merkleLevel_length]
  by_cases h : i ^^^ 1 < l.length
  · rw [if_pos h, if_pos h, climb_of_sibling h]
    rfl
  · rw [if_neg h, if_neg h, climb, if_neg h]
    rfl

omit [Crypto] in
theorem ordered_mem_levelPairs {l : List Hash256} {i : Nat} {y : Hash256} (hy : l[i]? = some y)
    (h : i ^^^ 1 < l.length) : ordered i (l.getD (i ^^^ 1) 0) y ∈ levelPairs l := by
  induction l using levelPairs.induct generalizing i with
  | case1 a b rest ih =>
      rw [levelPairs]
      rcases i with _ | _ | i
      · cases hy
        exact List.mem_cons_self
      · cases hy
        exact List.mem_cons_self
      · rw [List.getElem?_cons_succ, List.getElem?_cons_succ] at hy
        rw [xor_one_add_two, List.length_cons, List.length_cons] at h
        have hmem := ih hy (by omega)
        have hmod : (i + 1 + 1) % 2 = i % 2 := by omega
        rw [ordered] at hmem
        rw [ordered, hmod, xor_one_add_two, List.getD_cons_succ, List.getD_cons_succ]
        exact List.mem_cons_of_mem _ hmem
  | case2 l hnot =>
      rcases l with _ | ⟨a, _ | ⟨b, l⟩⟩
      · cases hy
      · have hi := (List.getElem?_eq_some_iff.mp hy).1
        rw [List.length_singleton] at hi h
        have hi : i = 0 := by omega
        subst hi
        exact absurd h (by decide)
      · exact absurd rfl (hnot a b l)

/-- One round back: two climbs to one value start from one value with one sibling. -/
theorem climb_inj {pairs : List (Hash256 × Hash256)} {values : List Hash256}
    (hb : NodesBind pairs values) {l : List Hash256} {i : Nat} {sibling x y : Hash256}
    (hx : i ^^^ 1 < l.length → ordered i sibling x ∈ pairs)
    (hy : i ^^^ 1 < l.length → ordered i (l.getD (i ^^^ 1) 0) y ∈ pairs)
    (hz : i ^^^ 1 < l.length ∨ sibling.isZero = true)
    (h : climb l i sibling x = climb l i (l.getD (i ^^^ 1) 0) y) :
    x = y ∧ sibling = l.getD (i ^^^ 1) 0 := by
  by_cases hs : i ^^^ 1 < l.length
  · rw [climb_of_sibling hs, climb_of_sibling hs] at h
    exact ordered_inj (hb.inj _ (hx hs) _ (hy hs) h)
  · rw [climb, climb, if_neg hs, if_neg hs] at h
    rw [getD_sibling hs]
    exact ⟨h, Hash256.isZero_iff.mp (hz.resolve_left hs)⟩

theorem verifyLoop_unique {pairs : List (Hash256 × Hash256)} {values : List Hash256}
    (hb : NodesBind pairs values) (k : Nat) {l : List Hash256} (hk : l.length ≤ k) {i : Nat}
    {y : Hash256} (hy : l[i]? = some y) {proof : List Hash256} {x : Hash256}
    (hroot : merkleLoopPairs k l ⊆ pairs)
    (hpath : merkleVerifyPairs proof i l.length x ⊆ pairs)
    (h : merkleVerifyLoop proof i l.length x = some (merkleLoop k l)) :
    x = y ∧ proof = merkleProofLoop k l i := by
  induction k generalizing l i x y proof with
  | zero =>
      rw [List.length_eq_zero_iff.mp (Nat.le_zero.mp hk)] at hy
      cases hy
  | succ k ih =>
      by_cases hl : 1 < l.length
      · cases proof with
        | nil =>
            rw [merkleVerifyLoop, if_pos hl] at h
            cases h
        | cons sibling proof =>
            rw [verifyLoop_cons hl, merkleLoop_level k hl] at h
            split at h
            · next hz =>
                rw [verifyPairs_cons hl, List.append_subset] at hpath
                rw [merkleLoopPairs_level, List.append_subset] at hroot
                have hlen : (merkleLevel l).length ≤ k := by
                  rw [merkleLevel_length]
                  omega
                obtain ⟨hup, hproof⟩ := ih hlen (merkleLevel_getElem? l hy) hroot.2 hpath.2 h
                obtain ⟨hxy, hsib⟩ := climb_inj hb
                  (fun hs => hpath.1 (by rw [if_pos hs]; exact List.mem_cons_self))
                  (fun hs => hroot.1 (ordered_mem_levelPairs hy hs)) hz hup
                refine ⟨hxy, ?_⟩
                rw [merkleProofLoop_level k hl, hsib, hproof]
            · cases h
      · obtain ⟨hval, rfl⟩ := merkleLoop_single hl hy
        rw [hval] at h
        rcases l with _ | ⟨a, _ | ⟨b, l⟩⟩
        · cases hy
        · cases proof with
          | nil => exact ⟨Option.some.inj h, rfl⟩
          | cons sibling proof => cases h
        · rw [List.length_cons, List.length_cons] at hl
          omega

/-- With a leaf count of the prover's own choice the path still ends in the tree. -/
theorem merkleVerify_mem {l : List Hash256} (hne : l ≠ []) {x : Hash256} {i count : Nat}
    {proof : List Hash256}
    (hb : NodesBind (merkleRootPairs l ++ merkleVerifyPairs proof i count x) (x :: l))
    (h : merkleVerify x i count proof (merkleRoot l) = true) : x ∈ l := by
  rw [merkleVerify] at h
  split at h
  · cases h
  · have hinside := @inside_merkleVerifyLoop _
      (fun a b => (a, b) ∈ merkleRootPairs l ++ merkleVerifyPairs proof i count x) _ _ _ _ _ _
      .here (fun p hp => List.mem_append_right _ hp) (eq_of_beq h)
    exact hinside.mem_leaves
      (over_merkleRoot hne fun p hp => List.mem_append_left _ hp)
      (fun a b c d hab hcd => hb.node_inj hab hcd)
      (fun y hy a b hab => hb.fresh y hy (a, b) hab)

/-- The proof the list gives is accepted; for its own length no other is, and for
no length any value that is not a leaf. -/
theorem merkle_proofs {l : List Hash256} (hne : l ≠ []) :
    (∀ i x, l[i]? = some x →
      merkleVerify x i l.length (merkleProof l i) (merkleRoot l) = true) ∧
    (∀ x i p, NodesBind (merkleRootPairs l ++ merkleVerifyPairs p i l.length x) [] →
      merkleVerify x i l.length p (merkleRoot l) = true →
        l[i]? = some x ∧ p = merkleProof l i) ∧
    ∀ x i count p,
      NodesBind (merkleRootPairs l ++ merkleVerifyPairs p i count x) (x :: l) →
      merkleVerify x i count p (merkleRoot l) = true → x ∈ l := by
  refine ⟨fun i x hx => ?_, fun x i p hb h => ?_, fun x i count p hb h => ?_⟩
  · have hi := (List.getElem?_eq_some_iff.mp hx).1
    rw [merkleVerify, if_neg (Nat.not_le.mpr hi)]
    exact beq_iff_eq.mpr (verifyLoop_proof l.length (Nat.le_refl _) hx)
  · rw [merkleVerify] at h
    split at h
    · cases h
    · next hi =>
        have hi : i < l.length := Nat.lt_of_not_le hi
        have hy : l[i]? = some l[i] := List.getElem?_eq_getElem hi
        obtain ⟨hxy, hp⟩ := verifyLoop_unique hb l.length (Nat.le_refl _) hy
          (List.subset_append_left _ _) (List.subset_append_right _ _) (eq_of_beq h)
        exact ⟨hxy ▸ hy, hp⟩
  · exact merkleVerify_mem hne hb h

end QuantCore

namespace QuantCore

attribute [local instance] plainCrypto

/-- Of two leaves, the second with the first as its sibling, and the same leaf
claimed to be the only one of its list. -/
theorem merkle_proofs_second :
    merkleVerify 2 1 2 (merkleProof [1, 2] 1) (merkleRoot [1, 2]) = true ∧
      [(1 : Hash256), 2][1]? = some 2 ∧ (2 : Hash256) ∈ [(2 : Hash256)] := by
  have hne : ([1, 2] : List Hash256) ≠ [] := List.cons_ne_nil _ _
  have hne' : ([2] : List Hash256) ≠ [] := List.cons_ne_nil _ _
  have hyes := (merkle_proofs hne).1 1 2 rfl
  have hb : NodesBind (merkleRootPairs [1, 2] ++
      merkleVerifyPairs (merkleProof [1, 2] 1) 1 2 2) [] :=
    ⟨inj_of_nodesDiffer (by decide +kernel), fun v hv => nomatch hv⟩
  have hb' : NodesBind (merkleRootPairs [2] ++ merkleVerifyPairs [] 0 1 2) (2 :: [2]) :=
    ⟨fun p hp => (nomatch hp), fun v _ p hp => (nomatch hp)⟩
  exact ⟨hyes, ((merkle_proofs hne).2.1 2 1 _ hb hyes).1,
    (merkle_proofs hne').2.2 2 0 1 [] hb' (by decide +kernel)⟩

end QuantCore
