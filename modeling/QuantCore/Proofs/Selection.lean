import Mathlib.Algebra.GroupWithZero.Nat
import Mathlib.Algebra.Ring.Int.Defs
import QuantCore.Proofs.Flows
import QuantCore.Wallet.Build

/-!
# Choosing coins

What the two selection loops of `build` come to. Coins of a token are a prefix
of that token's coins by value, as many as cover the need, and the change is
what they hold beyond it; QNT coins are a prefix of the QNT coins that covers
the need and the fee. What a loop has taken is summed in 64 bits, so a token's
account is settled up to a multiple of 2^64, and exactly when its coins fit.
-/

namespace QuantCore

open Maps

def coinsValue (cs : List WalletCoin) : Nat := (cs.map fun c => c.out.value.toNat).sum

theorem coinsValue_cons (c : WalletCoin) (l : List WalletCoin) :
    coinsValue (c :: l) = c.out.value.toNat + coinsValue l := rfl

theorem assetValue_coins {a : Hash256} {l : List WalletCoin} (h : ∀ c ∈ l, c.out.asset = a) :
    assetValue a (l.map WalletCoin.out) = coinsValue l := by
  induction l with
  | nil => rfl
  | cons c l ih =>
      rw [List.map_cons, assetValue_cons, if_pos (h c List.mem_cons_self),
        ih fun x hx => h x (List.mem_cons_of_mem _ hx)]
      rfl

/-! ## Needs -/

namespace Needs

theorem get_add (m : Needs) (a x : Hash256) (v : Int) :
    (m.add a v).get x = m.get x + if a = x then v else 0 := by
  rw [get, add, lookup_insert_ite]
  split
  · next h => rw [h, if_pos rfl]; rfl
  · next h => rw [if_neg (Ne.symm h), Int.add_zero]; rfl

theorem get_foldl_add {α : Type} (f : α → Hash256) (g : α → Int) (l : List α) (m : Needs)
    (x : Hash256) : (l.foldl (fun m e => m.add (f e) (g e)) m).get x =
      m.get x + (l.map fun e => if f e = x then g e else 0).sum := by
  induction l generalizing m with
  | nil => exact (Int.add_zero _).symm
  | cons e l ih => rw [List.foldl_cons, ih, get_add, List.map_cons, List.sum_cons, Int.add_assoc]

end Needs

namespace Plan

theorem need_get (p : Plan) (a : Hash256) : p.need.get a =
    assetValue a p.outs + (amountOf p.opIn a).toNat - (amountOf p.opOut a).toNat := by
  have hout : ((p.outs.map fun o => if o.asset = a then (o.value.toNat : Int) else 0).sum) =
      assetValue a p.outs := by
    rw [assetValue]
    induction p.outs with
    | nil => rfl
    | cons o l ih =>
        rw [List.map_cons, List.sum_cons, ih, List.map_cons, List.sum_cons, Int.natCast_add]
        split <;> rfl
  rw [need, Needs.get_foldl_add, Needs.get_foldl_add, Needs.get_foldl_add, hout,
    sum_pairs_at p.opIn fun v => (v.toNat : Int), sum_pairs_at p.opOut fun v => -(v.toNat : Int),
    amountOf, amountOf]
  cases p.opIn.lookup a <;> cases p.opOut.lookup a <;>
    simp only [Needs.get, AList.lookup_empty, Option.map_none, Option.map_some, Option.getD_none,
      Option.getD_some, UInt64.toNat_zero] <;> omega

theorem need_gt (p : Plan) (a : Hash256) : -2 ^ 64 < p.need.get a := by
  have h := (amountOf p.opOut a).toNat_lt
  rw [need_get]
  omega

theorem mem_sorted {m : Needs} {e : Hash256 × Int} : e ∈ m.sorted ↔ m.lookup e.1 = some e.2 := by
  rw [Needs.sorted, (List.perm_insertionSort _ _).mem_iff]
  exact mem_pairs

theorem sorted_nodup (m : Needs) : (m.sorted.map Prod.fst).Nodup :=
  ((List.perm_insertionSort _ _).map Prod.fst).nodup_iff.mpr (pairs_nodup m)

theorem sorted_sum (m : Needs) (a : Hash256) :
    (m.sorted.map fun e => if e.1 = a then e.2 else 0).sum = m.get a := by
  rw [Needs.sorted, ((List.perm_insertionSort _ _).map _).sum_eq, sum_pairs_at m fun v => v, Needs.get]
  cases m.lookup a <;> rfl

/-! ## Coins taken from the wallet's -/

/-- Distinct coins of the wallet's spendable ones, of some assets only. -/
structure Picked (spendable : List WalletCoin) (p : Hash256 → Prop) (l : List WalletCoin) :
    Prop where
  distinct : (l.map WalletCoin.op).Nodup
  mem : ∀ c ∈ l, c ∈ spendable ∧ p c.out.asset

section

variable {spendable : List WalletCoin}

theorem Picked.mono {p q : Hash256 → Prop} {l : List WalletCoin} (h : Picked spendable p l)
    (hpq : ∀ a, p a → q a) : Picked spendable q l :=
  ⟨h.distinct, fun c hc => ⟨(h.mem c hc).1, hpq _ (h.mem c hc).2⟩⟩

theorem picked_nil (p : Hash256 → Prop) : Picked spendable p [] :=
  ⟨List.nodup_nil, fun _ hc => absurd hc List.not_mem_nil⟩

/-- Coins of different assets are different coins. -/
theorem Picked.append (hs : (spendable.map WalletCoin.op).Nodup) {p q : Hash256 → Prop}
    {l₁ l₂ : List WalletCoin} (h₁ : Picked spendable p l₁) (h₂ : Picked spendable q l₂)
    (hpq : ∀ a, p a → ¬ q a) : Picked spendable (fun a => p a ∨ q a) (l₁ ++ l₂) where
  distinct := by
    rw [List.map_append]
    refine List.nodup_append.mpr ⟨h₁.distinct, h₂.distinct, fun o ho o' ho' he => ?_⟩
    obtain ⟨c, hc, rfl⟩ := List.mem_map.mp ho
    obtain ⟨d, hd, rfl⟩ := List.mem_map.mp ho'
    have hcd : c = d := List.inj_on_of_nodup_map hs (h₁.mem c hc).1 (h₂.mem d hd).1 he
    exact hpq _ (h₁.mem c hc).2 (hcd ▸ (h₂.mem d hd).2)
  mem c hc := by
    rcases List.mem_append.mp hc with hc | hc
    · exact ⟨(h₁.mem c hc).1, .inl (h₁.mem c hc).2⟩
    · exact ⟨(h₂.mem c hc).1, .inr (h₂.mem c hc).2⟩

/-- A prefix of a pool sorted by value. -/
theorem picked_byValue (hs : (spendable.map WalletCoin.op).Nodup) {f : WalletCoin → Bool}
    {p : Hash256 → Prop} (hf : ∀ c, f c = true → p c.out.asset) {l rest : List WalletCoin}
    (h : byValue (spendable.filter f) = l ++ rest) : Picked spendable p l := by
  have hperm : (l ++ rest).Perm (spendable.filter f) := h ▸ List.perm_insertionSort _ _
  have hnd : ((l ++ rest).map WalletCoin.op).Nodup :=
    (hperm.map _).nodup_iff.mpr (hs.sublist (List.filter_sublist.map _))
  refine ⟨?_, fun c hc => ?_⟩
  · rw [List.map_append] at hnd
    exact (List.nodup_append.mp hnd).1
  · have hm := hperm.mem_iff.mp (List.mem_append_left rest hc)
    exact ⟨(List.mem_filter.mp hm).1, hf c (List.mem_filter.mp hm).2⟩

end

/-! ## The loop over the tokens -/

theorem takeCoins_spec (n : Int) (pool sel : List WalletCoin) (got : Amount) :
    ∃ taken rest, pool = taken ++ rest ∧ takeCoins n pool sel got =
      (sel ++ taken, got + UInt64.ofNat (coinsValue taken)) := by
  have hnone : (sel, got) = (sel ++ [], got + UInt64.ofNat (coinsValue [])) := by
    rw [List.append_nil, show UInt64.ofNat (coinsValue []) = 0 from rfl, UInt64.add_zero]
  induction pool generalizing sel got with
  | nil => exact ⟨[], [], rfl, hnone⟩
  | cons c pool ih =>
      rw [takeCoins]
      split
      · exact ⟨[], c :: pool, rfl, hnone⟩
      · obtain ⟨taken, rest, hpool, htake⟩ := ih (sel ++ [c]) (got + c.out.value)
          (by rw [List.append_nil, show UInt64.ofNat (coinsValue []) = 0 from rfl, UInt64.add_zero])
        refine ⟨c :: taken, rest, congrArg (c :: ·) hpool, ?_⟩
        rw [htake, List.append_assoc, List.singleton_append, coinsValue_cons, UInt64.ofNat_add,
          UInt64.ofNat_toNat, UInt64.add_assoc]

/-- Coins worth `i` meet the need `n` and the change `c` in 64 bits, and exactly
if the coins fit. -/
def Settles (n : Int) (i c : Nat) : Prop :=
  ((i : Int) - n - c) % 2 ^ 64 = 0 ∧ (i < 2 ^ 64 → (i : Int) = n + c)

theorem settles_zero : Settles 0 0 0 := ⟨rfl, fun _ => rfl⟩

theorem Settles.add {n₁ n₂ : Int} {i₁ i₂ c₁ c₂ : Nat} (h₁ : Settles n₁ i₁ c₁)
    (h₂ : Settles n₂ i₂ c₂) : Settles (n₁ + n₂) (i₁ + i₂) (c₁ + c₂) := by
  obtain ⟨hm₁, he₁⟩ := h₁
  obtain ⟨hm₂, he₂⟩ := h₂
  refine ⟨by omega, fun h => ?_⟩
  have h₁ := he₁ (by omega)
  have h₂ := he₂ (by omega)
  omega

/-- What rounds over the needs `es` take and leave as change. -/
structure Rounds (spendable : List WalletCoin) (es : List (Hash256 × Int))
    (taken : List WalletCoin) (change : List TxOut) : Prop where
  picked : Picked spendable (fun a => a ∈ es.map Prod.fst ∧ a ≠ qntAsset) taken
  tokens : ∀ o ∈ change, o.asset ∈ es.map Prod.fst ∧ o.asset ≠ qntAsset
  settles : ∀ a ≠ qntAsset, Settles (es.map fun e => if e.1 = a then e.2 else 0).sum
    (assetValue a (taken.map WalletCoin.out)) (assetValue a change)

section

variable {spendable : List WalletCoin}

/-- The change of a token for which coins worth `i` were taken. -/
theorem settles_left {n : Int} {i : Nat} (hn : -2 ^ 64 < n) (hpos : n ≤ 0 → i = 0)
    (hle : n ≤ (i % 2 ^ 64 : Nat)) :
    Settles n i (UInt64.ofInt ((i % 2 ^ 64 : Nat) - n)).toNat := by
  rw [UInt64.ofInt, UInt64.toNat_ofNat']
  refine ⟨by omega, fun h => ?_⟩
  omega

/-- The change that is pushed if anything is left. -/
theorem leftChange_spec (a : Hash256) (change : List TxOut) {left : Int} (h : 0 ≤ left) :
    ∃ new, (if left > 0 then change ++ [⟨UInt64.ofInt left, a, 0⟩] else change) = change ++ new ∧
      (∀ o ∈ new, o.asset = a) ∧ assetValue a new = (UInt64.ofInt left).toNat := by
  split
  · refine ⟨_, rfl, fun o ho => ?_, ?_⟩
    · rw [List.mem_singleton.mp ho]
    · rw [assetValue_cons, if_pos rfl]
      rfl
  · next hle =>
      have h0 : left = 0 := Int.le_antisymm (not_lt.mp hle) h
      exact ⟨[], (List.append_nil _).symm, fun o ho => absurd ho List.not_mem_nil, by rw [h0]; rfl⟩

/-- The coins of a round, none if none are needed. -/
theorem roundCoins_spec (n : Int) (pool sel : List WalletCoin) :
    ∃ taken rest, pool = taken ++ rest ∧ (n ≤ 0 → taken = []) ∧
      (if n > 0 then takeCoins n pool sel 0 else (sel, 0)) =
        (sel ++ taken, UInt64.ofNat (coinsValue taken)) := by
  split
  · next hpos =>
      obtain ⟨taken, rest, hpool, htake⟩ := takeCoins_spec n pool sel 0
      rw [UInt64.zero_add] at htake
      exact ⟨taken, rest, hpool, fun hle => absurd hpos (not_lt.mpr hle), htake⟩
  · exact ⟨[], pool, rfl, fun _ => rfl, by rw [List.append_nil]; rfl⟩

theorem takeToken_rounds (hs : (spendable.map WalletCoin.op).Nodup) {s s' : Chosen}
    {e : Hash256 × Int} (hn : -2 ^ 64 < e.2)
    (h : takeToken spendable s e = .ok s') : ∃ taken change, s'.sel = s.sel ++ taken ∧
      s'.change = s.change ++ change ∧ Rounds spendable [e] taken change := by
  simp only [takeToken] at h
  split at h
  · next hz =>
      cases h
      refine ⟨[], [], (List.append_nil _).symm, (List.append_nil _).symm, picked_nil _,
        fun o ho => absurd ho List.not_mem_nil, fun a ha => ?_⟩
      rw [List.map_cons, List.map_nil, List.sum_singleton,
        if_neg fun he => ha (he.symm.trans (Hash256.isZero_iff.mp hz))]
      exact settles_zero
  · next hz =>
      obtain ⟨taken, rest, hpool, hnone, htake⟩ :=
        roundCoins_spec e.2 (byValue (spendable.filter fun c => c.out.asset == e.1)) s.sel
      simp only [htake, UInt64.toNat_ofNat'] at h
      split at h
      · cases h
      · next hcover =>
          cases h
          have hp : Picked spendable (fun a => a = e.1) taken :=
            picked_byValue (p := fun a => a = e.1) hs (fun c hc => eq_of_beq hc) hpool
          have hne : e.1 ≠ qntAsset := fun he => hz (Hash256.isZero_iff.mpr he)
          have hval : assetValue e.1 (taken.map WalletCoin.out) = coinsValue taken :=
            assetValue_coins fun c hc => (hp.mem c hc).2
          have hpos : e.2 ≤ 0 → coinsValue taken = 0 := fun hle => by rw [hnone hle]; rfl
          have hle : e.2 ≤ (coinsValue taken % 2 ^ 64 : Nat) := by omega
          obtain ⟨new, hnew, htok, hleft⟩ := leftChange_spec e.1 s.change
            (Int.sub_nonneg_of_le hle)
          refine ⟨taken, new, rfl, hnew, hp.mono fun a ha => ?_, fun o ho => ?_, fun a ha => ?_⟩
          · rw [ha]
            exact ⟨List.mem_cons_self, hne⟩
          · rw [htok o ho]
            exact ⟨List.mem_cons_self, hne⟩
          · rw [List.map_cons, List.map_nil, List.sum_singleton]
            split
            · next he =>
                rw [← he, hval, hleft]
                exact settles_left hn hpos hle
            · next he =>
                rw [assetValue_eq_zero fun o ho => (htok o ho).trans_ne he,
                  assetValue_eq_zero fun o ho => ?_]
                · exact settles_zero
                · obtain ⟨c, hc, rfl⟩ := List.mem_map.mp ho
                  exact (hp.mem c hc).2.trans_ne he

theorem Rounds.append (hs : (spendable.map WalletCoin.op).Nodup) {es₁ es₂ : List (Hash256 × Int)}
    {t₁ t₂ : List WalletCoin} {c₁ c₂ : List TxOut} (h₁ : Rounds spendable es₁ t₁ c₁)
    (h₂ : Rounds spendable es₂ t₂ c₂) (hnd : ((es₁ ++ es₂).map Prod.fst).Nodup) :
    Rounds spendable (es₁ ++ es₂) (t₁ ++ t₂) (c₁ ++ c₂) where
  picked := by
    rw [List.map_append] at hnd ⊢
    refine (h₁.picked.append hs h₂.picked fun a ha hb =>
      (List.nodup_append.mp hnd).2.2 a ha.1 a hb.1 rfl).mono fun a ha => ?_
    rcases ha with ha | ha
    · exact ⟨List.mem_append_left _ ha.1, ha.2⟩
    · exact ⟨List.mem_append_right _ ha.1, ha.2⟩
  tokens o ho := by
    rw [List.map_append]
    rcases List.mem_append.mp ho with ho | ho
    · exact ⟨List.mem_append_left _ (h₁.tokens o ho).1, (h₁.tokens o ho).2⟩
    · exact ⟨List.mem_append_right _ (h₂.tokens o ho).1, (h₂.tokens o ho).2⟩
  settles a ha := by
    rw [List.map_append, List.sum_append, List.map_append, assetValue_append, assetValue_append]
    exact (h₁.settles a ha).add (h₂.settles a ha)

/-- The whole loop over the tokens. -/
theorem takeTokens_rounds (hs : (spendable.map WalletCoin.op).Nodup)
    {es : List (Hash256 × Int)} (hnd : (es.map Prod.fst).Nodup) (hn : ∀ e ∈ es, -2 ^ 64 < e.2)
    {s s' : Chosen} (h : es.foldlM (takeToken spendable) s = .ok s') :
    ∃ taken change, s'.sel = s.sel ++ taken ∧ s'.change = s.change ++ change ∧
      Rounds spendable es taken change := by
  induction es generalizing s with
  | nil =>
      cases h
      exact ⟨[], [], (List.append_nil _).symm, (List.append_nil _).symm, picked_nil _,
        fun o ho => absurd ho List.not_mem_nil, fun a _ => settles_zero⟩
  | cons e es ih =>
      rw [List.foldlM_cons] at h
      cases hr : takeToken spendable s e with
      | error err => rw [hr] at h; cases h
      | ok s₁ =>
          rw [hr] at h
          obtain ⟨t₁, c₁, hs₁, hc₁, h₁⟩ := takeToken_rounds hs (hn e List.mem_cons_self) hr
          obtain ⟨t₂, c₂, hs₂, hc₂, h₂⟩ := ih (List.nodup_cons.mp hnd).2
            (fun x hx => hn x (List.mem_cons_of_mem _ hx)) h
          refine ⟨t₁ ++ t₂, c₁ ++ c₂, ?_, ?_, h₁.append hs h₂ hnd⟩
          · rw [hs₂, hs₁, List.append_assoc]
          · rw [hc₂, hc₁, List.append_assoc]

end

/-! ## The QNT loop -/

theorem takeQnt_spec {p : Plan} {feePerKb : Amount} {change : List TxOut} {qneed : Int}
    {pool sel : List WalletCoin} {qhave : Amount} {qcount : Nat}
    {r : List WalletCoin × Amount × Amount}
    (h : p.takeQnt feePerKb change qneed pool sel qhave qcount = .ok r) :
    ∃ taken rest, pool = taken ++ rest ∧ r.1 = sel ++ taken ∧
      r.2.1 = qhave + UInt64.ofNat (coinsValue taken) ∧ r.2.2 = p.fee feePerKb change r.1 ∧
      0 < qcount + taken.length ∧ (p.sweep = true → rest = []) ∧
      (p.sweep = false → p.want qneed r.2.2 ≤ r.2.1.toNat) := by
  have hnone : qhave = qhave + UInt64.ofNat (coinsValue []) := by
    rw [show UInt64.ofNat (coinsValue []) = 0 from rfl, UInt64.add_zero]
  induction pool generalizing sel qhave qcount with
  | nil =>
      simp only [takeQnt] at h
      split at h
      · next hstop =>
          cases h
          exact ⟨[], [], rfl, (List.append_nil _).symm, hnone, rfl, hstop.1, fun _ => rfl,
            fun _ => hstop.2.1⟩
      · split at h
        · next hsweep =>
            cases h
            exact ⟨[], [], rfl, (List.append_nil _).symm, hnone, rfl, hsweep.2, fun _ => rfl,
              fun hf => absurd (hf.symm.trans hsweep.1) Bool.false_ne_true⟩
        · cases h
  | cons c pool ih =>
      simp only [takeQnt] at h
      split at h
      · next hstop =>
          cases h
          refine ⟨[], c :: pool, rfl, (List.append_nil _).symm, hnone, rfl, hstop.1, fun ht => ?_,
            fun _ => hstop.2.1⟩
          rw [ht] at hstop
          cases hstop.2.2
      · split at h
        · cases h
        · obtain ⟨taken, rest, hpool, hsel, hq, hfee, hcount, hrest, hcover⟩ := ih h
            (by rw [show UInt64.ofNat (coinsValue []) = 0 from rfl, UInt64.add_zero])
          refine ⟨c :: taken, rest, congrArg (c :: ·) hpool, ?_, ?_, hfee, ?_, hrest, hcover⟩
          · rw [hsel, List.append_assoc, List.singleton_append]
          · rw [hq, coinsValue_cons, UInt64.ofNat_add, UInt64.ofNat_toNat, UInt64.add_assoc]
          · rw [List.length_cons]
            omega

/-! ## The draft -/

/-- What a draft is: the coins `toks` and the change of the tokens, the coins
`qnts`, and what follows from them. -/
structure Drafted (p : Plan) (spendable : List WalletCoin) (feePerKb : Amount) (d : Draft)
    (toks qnts : List WalletCoin) (change : List TxOut) : Prop where
  sel : d.sel = toks ++ qnts
  rounds : Rounds spendable p.need.sorted toks change
  pool : ∃ rest, byValue (if p.sweep then p.sweepCoins else
    spendable.filter fun c => c.out.isQnt) = qnts ++ rest ∧ (p.sweep = true → rest = [])
  nonempty : qnts ≠ []
  qhave : d.qhave = UInt64.ofNat (coinsValue qnts)
  fee : d.fee = p.fee feePerKb change d.sel
  covers : p.sweep = false → p.want (p.need.get qntAsset) d.fee ≤ d.qhave.toNat
  outs : p.payOuts d.qhave d.fee = .ok d.outs
  change : d.change = change ++ p.qntChange d.qhave d.fee

theorem draft_drafted {p : Plan} {spendable : List WalletCoin} {feePerKb : Amount} {d : Draft}
    (hs : (spendable.map WalletCoin.op).Nodup) (h : p.draft spendable feePerKb = .ok d) :
    ∃ toks qnts change, Drafted p spendable feePerKb d toks qnts change := by
  simp only [draft] at h
  cases hr : p.need.sorted.foldlM (takeToken spendable) {} with
  | error e => rw [hr] at h; cases h
  | ok s =>
      simp only [hr, bind, Except.bind] at h
      split at h
      · cases h
      · next r hq =>
          split at h
          · cases h
          · next outs houts =>
              cases h
              have hn : ∀ e ∈ p.need.sorted, -2 ^ 64 < e.2 := fun e he => by
                have hg := p.need_gt e.1
                rw [Needs.get, mem_sorted.mp he] at hg
                exact hg
              obtain ⟨toks, change, hsel, hchange, hrounds⟩ :=
                takeTokens_rounds hs (sorted_nodup _) hn hr
              rw [List.nil_append] at hsel hchange
              obtain ⟨qnts, rest, hpool, hall, hhave, hfee, hcount, hrest, hcover⟩ :=
                takeQnt_spec hq
              rw [hsel] at hall
              rw [UInt64.zero_add] at hhave
              rw [hchange] at hfee
              refine ⟨toks, qnts, change, hall, hrounds, ⟨rest, hpool, hrest⟩, fun he => ?_, hhave,
                hfee, hcover, houts, ?_⟩
              · rw [he] at hcount
                exact Nat.lt_irrefl 0 hcount
              · show s.change ++ _ = _
                rw [hchange]

end Plan

end QuantCore
