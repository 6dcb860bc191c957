import QuantCore.Proofs.LightWallet

/-!
# What the replies of a round list

A reply proves outputs, and names outputs of the peer's mempool. The coin map of a
round keeps the first listing of each outpoint: a proof that comes after a listing
of its outpoint as unconfirmed is checked and passed over. So of the outputs that
the replies prove, the round counts those whose first listing is a proof.
-/

namespace QuantCore

open Codec Maps

/-- An output at an address of the wallet, as a reply lists it. -/
inductive Listing
  /-- With a proof that passes the checks. -/
  | proved (op : OutPoint) (out : TxOut)
  /-- As an output of the peer's mempool. -/
  | pending (op : OutPoint)
deriving DecidableEq, Repr

namespace Listing

def op : Listing → OutPoint
  | proved op _ => op
  | pending op => op

/-- The output that is proved. -/
def proof? : Listing → Option (OutPoint × TxOut)
  | proved op out => some (op, out)
  | pending _ => none

end Listing

/-! ## Reading the listings -/

/-- The items of a section: what they list, and the bytes after them if all parse. -/
def listMany (item : Bytes → List Listing × Option Bytes) :
    Nat → Bytes → List Listing × Option Bytes
  | 0, bs => ([], some bs)
  | k + 1, bs =>
      match item bs with
      | (l, none) => (l, none)
      | (l, some bs) => ((l ++ (listMany item k bs).1), (listMany item k bs).2)

def listSection (item : Bytes → List Listing × Option Bytes) (bs : Bytes) :
    List Listing × Option Bytes :=
  match ByteReader.varintMax (UInt64.ofNat maxUtxoEntries) bs with
  | .error _ => ([], none)
  | .ok (n, bs) => listMany item n.toNat bs

def listSpent (bs : Bytes) : List Listing × Option Bytes :=
  match readUtxoOp bs with
  | .error _ => ([], none)
  | .ok (_, bs) => ([], some bs)

def listPending (w : Wallet) (bs : Bytes) : List Listing × Option Bytes :=
  match (do let o ← readUtxoOp; let out ← readTxOut; pure (o, out) :
      ByteReader (OutPoint × TxOut)) bs with
  | .error _ => ([], none)
  | .ok ((o, out), bs) => (if w.isMine out.addr then [.pending o] else [], some bs)

namespace LightClient

variable [Crypto]

def listProof (c : LightClient) (w : Wallet) (bs : Bytes) : List Listing × Option Bytes :=
  match UtxoProof.read bs with
  | .error _ => ([], none)
  | .ok (u, bs) =>
      match c.checkProof w u with
      | .error _ => ([], none)
      | .ok none => ([], some bs)
      | .ok (some (_, coin)) => ([.proved coin.op coin.out], some bs)

/-- What a reply lists of the wallet's, up to where it breaks off. -/
def listings (c : LightClient) (w : Wallet) (reply : Bytes) : List Listing :=
  match readUtxosHead reply with
  | .error _ => []
  | .ok ((), bs) =>
      match listSection (c.listProof w) bs with
      | (l, none) => l
      | (l, some bs) =>
          match listSection listSpent bs with
          | (_, none) => l
          | (_, some bs) => l ++ (listSection (listPending w) bs).1

end LightClient

/-! ## What a round counts -/

/-- The outputs of a transaction whose first listing, none of `seen` having been
listed before, is a proof. -/
def counted (txid : Hash256) : List OutPoint → List Listing → List (OutPoint × TxOut)
  | _, [] => []
  | seen, .proved o out :: l =>
      if o.txid = txid ∧ o ∉ seen then (o, out) :: counted txid (o :: seen) l
      else counted txid (o :: seen) l
  | seen, .pending o :: l => counted txid (o :: seen) l

/-- The outputs of a transaction that are proved at all, each once. -/
def proved (txid : Hash256) (l : List Listing) : List (OutPoint × TxOut) :=
  ((l.filterMap Listing.proof?).filter fun e => e.1.txid = txid).dedup

theorem counted_congr {txid : Hash256} {s₁ s₂ : List OutPoint} (h : ∀ o, o ∈ s₁ ↔ o ∈ s₂)
    (l : List Listing) : counted txid s₁ l = counted txid s₂ l := by
  induction l generalizing s₁ s₂ with
  | nil => rfl
  | cons x l ih =>
      have hnext : ∀ o, counted txid (o :: s₁) l = counted txid (o :: s₂) l := fun o =>
        ih fun x => by rw [List.mem_cons, List.mem_cons, h]
      cases x with
      | proved o out => simp only [counted, h, hnext]
      | pending o => simp only [counted, hnext]

theorem counted_append (txid : Hash256) (seen : List OutPoint) (l₁ l₂ : List Listing) :
    counted txid seen (l₁ ++ l₂) =
      counted txid seen l₁ ++ counted txid (l₁.map Listing.op ++ seen) l₂ := by
  induction l₁ generalizing seen with
  | nil => rfl
  | cons x l₁ ih =>
      have hseen : ∀ o, counted txid (l₁.map Listing.op ++ o :: seen) l₂ =
          counted txid (o :: (l₁.map Listing.op ++ seen)) l₂ := fun o =>
        counted_congr (fun x => by simp only [List.mem_append, List.mem_cons]; tauto) l₂
      rw [List.cons_append, List.map_cons, List.cons_append]
      cases x with
      | proved o out =>
          rw [counted, counted, ih, hseen]
          split
          · rfl
          · rfl
      | pending o => rw [counted, counted, ih, hseen]; rfl

/-- What is counted has not been seen before, and is counted once. -/
theorem counted_spec (txid : Hash256) (l : List Listing) : ∀ seen : List OutPoint,
    ((counted txid seen l).map Prod.fst).Nodup ∧
      ∀ e ∈ counted txid seen l, e.1 ∉ seen ∧ e ∈ proved txid l := by
  induction l with
  | nil => exact fun seen => ⟨List.nodup_nil, fun e he => by cases he⟩
  | cons x l ih =>
      intro seen
      have hrest : ∀ e ∈ proved txid l, e ∈ proved txid (x :: l) := fun e he => by
        rw [proved, List.mem_dedup, List.mem_filter, List.mem_filterMap] at he ⊢
        obtain ⟨⟨y, hy, hp⟩, ht⟩ := he
        exact ⟨⟨y, List.mem_cons_of_mem _ hy, hp⟩, ht⟩
      obtain ⟨hnodup, hmem⟩ := ih (x.op :: seen)
      have hkeep : ∀ e ∈ counted txid (x.op :: seen) l, e.1 ∉ seen ∧ e ∈ proved txid (x :: l) :=
        fun e he => ⟨fun hs => (hmem e he).1 (List.mem_cons_of_mem _ hs), hrest e (hmem e he).2⟩
      cases x with
      | pending o => exact ⟨hnodup, hkeep⟩
      | proved o out =>
          rw [counted]
          split
          · next hnew =>
              refine ⟨?_, fun e he => ?_⟩
              · rw [List.map_cons, List.nodup_cons]
                refine ⟨fun hin => ?_, hnodup⟩
                obtain ⟨e, he, heq⟩ := List.mem_map.mp hin
                exact (hmem e he).1 (heq ▸ List.mem_cons_self)
              · rcases List.mem_cons.mp he with rfl | he
                · refine ⟨hnew.2, ?_⟩
                  rw [proved, List.mem_dedup, List.mem_filter, List.mem_filterMap]
                  exact ⟨⟨_, List.mem_cons_self, rfl⟩, decide_eq_true hnew.1⟩
                · exact hkeep e he
          · exact ⟨hnodup, hkeep⟩

/-! ## The coin map of a round -/

/-- The coins of a transaction among those that were checked; a coin of a
mempool has no height. -/
def checkedCoins (coins : UMap OutPoint WalletCoin) (txid : Hash256) : List WalletCoin :=
  ((pairs coins).map Prod.snd).filter fun c => 0 ≤ c.height ∧ c.op.txid = txid

theorem pairs_insert_new {coins : UMap OutPoint WalletCoin} {coin : WalletCoin}
    (hnew : coins.lookup coin.op = none) :
    pairs (coins.insert coin.op coin) = (coin.op, coin) :: pairs coins := by
  rw [pairs, AList.entries_insert_of_notMem (AList.lookup_eq_none.mp hnew), List.map_cons]
  rfl

theorem checkedCoins_insert {coins : UMap OutPoint WalletCoin} {coin : WalletCoin}
    (hnew : coins.lookup coin.op = none) (hheight : 0 ≤ coin.height) :
    checkedCoins (coins.insert coin.op coin) coin.op.txid =
      coin :: checkedCoins coins coin.op.txid := by
  rw [checkedCoins, pairs_insert_new hnew, List.map_cons]
  exact List.filter_cons_of_pos (decide_eq_true ⟨hheight, rfl⟩)

theorem checkedCoins_insert_other {coins : UMap OutPoint WalletCoin} {coin : WalletCoin}
    (hnew : coins.lookup coin.op = none) {txid : Hash256}
    (hcoin : ¬ (0 ≤ coin.height ∧ coin.op.txid = txid)) :
    checkedCoins (coins.insert coin.op coin) txid = checkedCoins coins txid := by
  rw [checkedCoins, pairs_insert_new hnew, List.map_cons]
  exact List.filter_cons_of_neg fun h => hcoin (of_decide_eq_true h)

def coinOutput (c : WalletCoin) : OutPoint × TxOut := (c.op, c.out)

/-- The coin map of a round that has come to the listings `l`. -/
structure Lists (coins : UMap OutPoint WalletCoin) (l : List Listing) : Prop where
  seen : ∀ o, coins.lookup o = none ↔ o ∉ l.map Listing.op
  counted : ∀ txid, ((checkedCoins coins txid).map coinOutput).Perm (counted txid [] l)

namespace Lists

variable {coins : UMap OutPoint WalletCoin} {l : List Listing}

theorem empty : Lists ∅ [] := ⟨fun _ => ⟨fun _ => List.not_mem_nil, fun _ => rfl⟩,
  fun _ => List.Perm.refl []⟩

/-- An outpoint that is listed again changes nothing. -/
theorem again (h : Lists coins l) {x : Listing} (hx : coins.lookup x.op ≠ none) :
    Lists coins (l ++ [x]) := by
  have hin : x.op ∈ l.map Listing.op := by
    by_contra hc
    exact hx ((h.seen x.op).mpr hc)
  refine ⟨fun o => ?_, fun txid => ?_⟩
  · rw [h.seen, List.map_append, List.map_singleton, List.mem_append, List.mem_singleton]
    refine not_congr ⟨.inl, fun ho => ?_⟩
    rcases ho with ho | rfl
    · exact ho
    · exact hin
  · have hnone : QuantCore.counted txid (l.map Listing.op ++ []) [x] = [] := by
      rw [List.append_nil]
      cases x with
      | pending o => rfl
      | proved o out => exact if_neg fun hc => hc.2 hin
    rw [counted_append, hnone, List.append_nil]
    exact h.counted txid

theorem seen_insert (h : Lists coins l) {coin : WalletCoin} {x : Listing} (hx : x.op = coin.op)
    (o : OutPoint) : (coins.insert coin.op coin).lookup o = none ↔
      o ∉ (l ++ [x]).map Listing.op := by
  rw [lookup_insert_ite, List.map_append, List.map_singleton, List.mem_append,
    List.mem_singleton, hx]
  split
  · next he => simp [he]
  · next he => simp [h.seen, he]

/-- A proof of an outpoint that is new is counted. -/
theorem addProved (h : Lists coins l) {coin : WalletCoin} (hheight : 0 ≤ coin.height)
    (hnew : coins.lookup coin.op = none) :
    Lists (coins.insert coin.op coin) (l ++ [.proved coin.op coin.out]) := by
  refine ⟨h.seen_insert rfl, fun txid => ?_⟩
  have hout : coin.op ∉ l.map Listing.op ++ [] := by
    rw [List.append_nil]
    exact (h.seen _).mp hnew
  rw [counted_append]
  by_cases hid : coin.op.txid = txid
  · obtain rfl := hid
    have hone : QuantCore.counted coin.op.txid (l.map Listing.op ++ [])
        [.proved coin.op coin.out] = [coinOutput coin] := if_pos ⟨rfl, hout⟩
    rw [checkedCoins_insert hnew hheight, List.map_cons, hone]
    exact ((h.counted _).cons _).trans (List.perm_append_singleton _ _).symm
  · have hnone : QuantCore.counted txid (l.map Listing.op ++ [])
        [.proved coin.op coin.out] = [] := if_neg fun hc => hid hc.1
    rw [checkedCoins_insert_other hnew fun hc => hid hc.2, hnone, List.append_nil]
    exact h.counted txid

/-- An output of a mempool hides the proofs of it that are still to come. -/
theorem addPending (h : Lists coins l) {coin : WalletCoin} (hheight : coin.height = -1)
    (hnew : coins.lookup coin.op = none) :
    Lists (coins.insert coin.op coin) (l ++ [.pending coin.op]) := by
  refine ⟨h.seen_insert rfl, fun txid => ?_⟩
  have hnone : QuantCore.counted txid (l.map Listing.op ++ []) [.pending coin.op] = [] := rfl
  rw [counted_append, hnone, List.append_nil, checkedCoins_insert_other hnew fun hc => ?_]
  · exact h.counted txid
  · rw [hheight] at hc
    exact absurd hc.1 (by decide)

end Lists

/-! ## Reading a reply -/

/-- A section goes on as far as its listings go, and its items are listed. -/
theorem takeSection_lists {item : Bytes → Scan → Scan × Option Bytes}
    {list : Bytes → List Listing × Option Bytes}
    (hitem : ∀ bs s l, Lists s.coins l →
      (item bs s).2 = (list bs).2 ∧ Lists (item bs s).1.coins (l ++ (list bs).1))
    (bs : Bytes) {s : Scan} {l : List Listing} (hs : Lists s.coins l) :
    (Scan.takeSection item bs s).2 = (listSection list bs).2 ∧
      Lists (Scan.takeSection item bs s).1.coins (l ++ (listSection list bs).1) := by
  have hmany : ∀ (n : Nat) (bs : Bytes) (s : Scan) (l : List Listing), Lists s.coins l →
      (Scan.takeMany item n bs s).2 = (listMany list n bs).2 ∧
        Lists (Scan.takeMany item n bs s).1.coins (l ++ (listMany list n bs).1) := by
    intro n
    induction n with
    | zero =>
        intro bs s l hs
        refine ⟨rfl, ?_⟩
        rw [listMany, List.append_nil]
        exact hs
    | succ n ih =>
        intro bs s l hs
        obtain ⟨hrest, hl⟩ := hitem bs s l hs
        rw [Scan.takeMany, listMany]
        rcases hi : item bs s with ⟨s', rest⟩
        rcases hj : list bs with ⟨l', rest'⟩
        rw [hi, hj] at hrest hl
        obtain rfl : rest = rest' := hrest
        cases rest with
        | none => exact ⟨rfl, hl⟩
        | some bs' =>
            have hnext := ih bs' s' (l ++ l') hl
            rw [List.append_assoc] at hnext
            exact hnext
  rw [Scan.takeSection, listSection]
  cases ByteReader.varintMax (UInt64.ofNat maxUtxoEntries) bs with
  | error e =>
      refine ⟨rfl, ?_⟩
      rw [List.append_nil]
      exact hs
  | ok x => exact hmany x.1.toNat x.2 s l hs

theorem takeSpent_lists {s : Scan} {l : List Listing} (bs : Bytes) (hs : Lists s.coins l) :
    (Scan.takeSpent bs s).2 = (listSpent bs).2 ∧
      Lists (Scan.takeSpent bs s).1.coins (l ++ (listSpent bs).1) := by
  rw [Scan.takeSpent, listSpent]
  cases readUtxoOp bs with
  | error e =>
      refine ⟨rfl, ?_⟩
      rw [List.append_nil]
      exact hs
  | ok x =>
      refine ⟨rfl, ?_⟩
      rw [List.append_nil]
      exact hs

theorem takeUnconfirmed_lists {w : Wallet} {s : Scan} {l : List Listing} (bs : Bytes)
    (hs : Lists s.coins l) :
    (Scan.takeUnconfirmed w bs s).2 = (listPending w bs).2 ∧
      Lists (Scan.takeUnconfirmed w bs s).1.coins (l ++ (listPending w bs).1) := by
  rw [Scan.takeUnconfirmed, listPending]
  generalize (do let o ← readUtxoOp; let out ← readTxOut; pure (o, out) :
    ByteReader (OutPoint × TxOut)) bs = r
  cases r with
  | error e =>
      refine ⟨rfl, ?_⟩
      rw [List.append_nil]
      exact hs
  | ok x =>
      obtain ⟨⟨o, out⟩, rest⟩ := x
      dsimp only
      by_cases hm : w.isMine out.addr = true
      · rw [if_pos hm, hm, Bool.true_and]
        cases hl : s.coins.lookup o with
        | none => exact ⟨rfl, @Lists.addPending _ _ hs ⟨o, out, -1, false, false⟩ rfl hl⟩
        | some c =>
            refine ⟨rfl, hs.again ?_⟩
            show s.coins.lookup o ≠ none
            rw [hl]
            exact Option.some_ne_none c
      · rw [if_neg hm, Bool.eq_false_of_not_eq_true hm, Bool.false_and]
        refine ⟨rfl, ?_⟩
        rw [List.append_nil]
        exact hs

theorem listSpent_nil (bs : Bytes) : (listSection listSpent bs).1 = [] := by
  have hone : ∀ bs, (listSpent bs).1 = [] := fun bs => by
    rw [listSpent]
    split <;> rfl
  have hmany : ∀ (n : Nat) (bs : Bytes), (listMany listSpent n bs).1 = [] := by
    intro n
    induction n with
    | zero => exact fun _ => rfl
    | succ n ih =>
        intro bs
        have h := hone bs
        rw [listMany]
        rcases hi : listSpent bs with ⟨l, rest⟩
        rw [hi] at h
        obtain rfl : l = [] := h
        cases rest with
        | none => rfl
        | some bs => exact ih bs
  rw [listSection]
  split
  · rfl
  · exact hmany _ _

namespace LightClient

variable [Crypto] {c : LightClient} {w : Wallet}

theorem takeProof_lists {s : Scan} {l : List Listing} (bs : Bytes) (hs : Lists s.coins l) :
    (c.takeProof w bs s).2 = (c.listProof w bs).2 ∧
      Lists (c.takeProof w bs s).1.coins (l ++ (c.listProof w bs).1) := by
  have hsame : Lists s.coins (l ++ []) := by rwa [List.append_nil]
  rw [takeProof, listProof]
  cases UtxoProof.read bs with
  | error e => exact ⟨rfl, hsame⟩
  | ok x =>
      dsimp only
      cases hcheck : c.checkProof w x.1 with
      | error e => exact ⟨rfl, hsame⟩
      | ok r =>
          cases r with
          | none => exact ⟨rfl, hsame⟩
          | some y =>
              refine ⟨rfl, ?_⟩
              obtain ⟨h, -, -, -, -, -, -, -, hheight, -⟩ := checkProof_some hcheck
              dsimp only [Scan.addChecked]
              split
              · next hnew =>
                  refine hs.addProved ?_ hnew
                  rw [hheight]
                  exact Int.natCast_nonneg h
              · next hold => exact hs.again hold

/-- A reply adds its listings to the coin map. -/
theorem readUtxos_lists {reply : Bytes} {s : Scan} {l : List Listing} (hs : Lists s.coins l) :
    Lists (c.readUtxos w reply s).coins (l ++ c.listings w reply) := by
  rw [readUtxos, listings]
  cases readUtxosHead reply with
  | error e =>
      dsimp only
      rw [List.append_nil]
      exact hs
  | ok x =>
      obtain ⟨⟨⟩, bs⟩ := x
      dsimp only
      obtain ⟨hrest, h₁⟩ := takeSection_lists (fun bs _ _ => takeProof_lists (c := c) (w := w) bs) bs hs
      rcases hi : Scan.takeSection (c.takeProof w) bs s with ⟨s₁, rest⟩
      rcases hj : listSection (c.listProof w) bs with ⟨l₁, rest'⟩
      rw [hi, hj] at hrest h₁
      obtain rfl : rest = rest' := hrest
      cases rest with
      | none => exact h₁
      | some bs₂ =>
          dsimp only
          have hnil := listSpent_nil bs₂
          obtain ⟨hrest, h₂⟩ := takeSection_lists (fun bs _ _ => takeSpent_lists bs) bs₂ h₁
          rcases hi : Scan.takeSection Scan.takeSpent bs₂ s₁ with ⟨s₂, rest⟩
          rcases hj : listSection listSpent bs₂ with ⟨l₂, rest'⟩
          rw [hj] at hnil
          rw [hi, hj] at hrest h₂
          obtain rfl : rest = rest' := hrest
          obtain rfl : l₂ = [] := hnil
          rw [List.append_nil] at h₂
          cases rest with
          | none => exact h₂
          | some bs₃ =>
              dsimp only
              rw [← List.append_assoc]
              exact (takeSection_lists (fun bs _ _ => takeUnconfirmed_lists bs) bs₃ h₂).2

/-- The coin map of a round is that of the listings of all replies to it. -/
theorem scanPeers_lists (peers : List LightPeer) (w : Wallet) (tick : Nat) :
    Lists (c.scanPeers peers w tick).1.coins
      ((c.scanPeers peers w tick).1.answered.flatMap (c.listings w)) := by
  have hask : ∀ (peer : LightPeer) (requests : List (List Hash256)) (st : Scan × Nat),
      Lists st.1.coins (st.1.answered.flatMap (c.listings w)) →
      Lists (c.askPeer w peer requests st).1.coins
        ((c.askPeer w peer requests st).1.answered.flatMap (c.listings w)) := by
    intro peer requests
    induction requests with
    | nil => exact fun st hs => hs
    | cons addrs rest ih =>
        intro st hs
        rw [askPeer]
        split
        · exact hs
        · next reply hreply =>
            refine ih _ ?_
            dsimp only
            rw [readUtxos_answered, List.flatMap_append, List.flatMap_singleton]
            exact readUtxos_lists (s := { st.1 with answered := st.1.answered ++ [reply] }) hs
  rw [scanPeers]
  exact List.foldlRecOn peers (motive := fun st : Scan × Nat =>
    Lists st.1.coins (st.1.answered.flatMap (c.listings w))) _ Lists.empty
    fun st hs peer _ => hask peer _ st hs

end LightClient

end QuantCore
