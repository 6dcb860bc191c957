import QuantCore.Crypto.Instances
import QuantCore.Light.Wallet
import QuantCore.Proofs.Codec
import QuantCore.Proofs.Merkle

/-!
# Coins a light client believes in

Peers answer `GetUtxos` with any bytes. A coin that is handed to the wallet as
confirmed has passed the checks of one proof, in whatever reply it came and
whatever the rest of that reply was; and a proof that passes shows an output of
a transaction under the Merkle root of a header the client holds. The scan of a
round keeps that of every confirmed coin it has collected.

Hashes are assumed to tell apart the byte strings in play: the transactions and
the trees the headers commit to, and what the replies that came in make the
client hash.
-/

namespace QuantCore

open Codec

variable [Crypto]

/-! ## The strings in play -/

/-- What computing a block's Merkle root hashes. -/
def blockStrings (txs : List Transaction) : List (Ctx × Bytes) :=
  txs.map (fun t => (Ctx.txid, t.writeCore)) ++
    (merkleRootPairs (txs.map Transaction.txid)).map nodeString

/-- What checking a proof hashes. -/
def UtxoProof.strings (u : UtxoProof) : List (Ctx × Bytes) :=
  (Ctx.txid, u.txCore) ::
    (merkleVerifyPairs u.merkle u.txIndex.toNat u.txCount.toNat
      (blake3Tagged .txid u.txCore)).map nodeString

omit [Crypto] in
/-- The proofs at the head of a section of `n`, up to one that does not parse. -/
def proofsFrom : Nat → Bytes → List UtxoProof
  | 0, _ => []
  | n + 1, bs =>
      match UtxoProof.read bs with
      | .error _ => []
      | .ok (u, bs) => u :: proofsFrom n bs

omit [Crypto] in
/-- The proofs of a section. -/
def sectionProofs (bs : Bytes) : List UtxoProof :=
  match ByteReader.varintMax (UInt64.ofNat maxUtxoEntries) bs with
  | .error _ => []
  | .ok (n, bs) => proofsFrom n.toNat bs

omit [Crypto] in
/-- The proofs of a reply. -/
def replyProofs (reply : Bytes) : List UtxoProof :=
  match LightClient.readUtxosHead reply with
  | .error _ => []
  | .ok ((), bs) => sectionProofs bs

namespace LightClient

/-- What is hashed in a call: by those who built the blocks, and by the client
for the replies of each round. -/
def refreshStrings (c : LightClient) (peers : List LightPeer) (w : Wallet)
    (txsOf : Nat → List Transaction) : List (Ctx × Bytes) :=
  (List.range c.headers.length).flatMap (fun h => blockStrings (txsOf h)) ++
    (c.refreshRounds peers maxRefreshRounds w c.tick).1.flatMap fun r =>
      r.1.answered.flatMap fun reply => (replyProofs reply).flatMap UtxoProof.strings

/-- Every header commits to the canonically encoded transactions of its height. -/
structure CommitsTo (c : LightClient) (txsOf : Nat → List Transaction) : Prop where
  limits : ∀ h, ∀ t ∈ txsOf h, t.core.Limits
  root : ∀ h header, c.headers[h]? = some header →
    header.merkleRoot = merkleRoot ((txsOf h).map Transaction.txid)

/-- The coin is an output of a transaction that the header of its height commits
to. -/
def Backed (c : LightClient) (txsOf : Nat → List Transaction) (coin : WalletCoin) : Prop :=
  ∃ (h : Nat) (header : BlockHeader) (t : Transaction), coin.height = h ∧
    c.headers[h]? = some header ∧
    header.merkleRoot = merkleRoot ((txsOf h).map Transaction.txid) ∧ t ∈ txsOf h ∧
    t.txid = coin.op.txid ∧ t.outs[coin.op.n.toNat]? = some coin.out ∧
    t.isCoinbase = coin.coinbase

/-! ## One proof -/

omit [Crypto] in
theorem heightOf_lt {c : LightClient} {b : Hash256} {h : Nat}
    (hh : c.heightOf.lookup b = some h) : h < c.headers.length := by
  rcases Maps.mem_of_lookup_insertAll hh with hm | hm
  · obtain ⟨i, hi, he⟩ := List.mem_map.mp hm
    cases he
    exact List.mem_range.mp hi
  · cases hm

omit [Crypto] in
theorem checkOutput_some {w : Wallet} {u : UtxoProof} {h h' : Nat} {tx : Transaction}
    {coin : WalletCoin} (hok : checkOutput w u h tx = some (h', coin)) :
    coin.op = u.op ∧ coin.height = h ∧ tx.outs[u.op.n.toNat]? = some coin.out ∧
      tx.isCoinbase = coin.coinbase := by
  rw [checkOutput] at hok
  split at hok
  · cases hok
  · next o ho =>
      split at hok
      · cases hok
      · split at hok
        · cases hok
        · cases hok
          exact ⟨rfl, rfl, ho, rfl⟩

theorem checkProof_some {c : LightClient} {w : Wallet} {u : UtxoProof} {h : Nat}
    {coin : WalletCoin} (hok : c.checkProof w u = .ok (some (h, coin))) :
    ∃ h tx rest, h < c.headers.length ∧ blake3Tagged .txid u.txCore = u.op.txid ∧
      merkleVerify (blake3Tagged .txid u.txCore) u.txIndex.toNat u.txCount.toNat u.merkle
        (c.headers.getD h default).merkleRoot = true ∧
      Transaction.readCore u.txCore = .ok (tx, rest) ∧
      coin.op = u.op ∧ coin.height = h ∧ tx.outs[u.op.n.toNat]? = some coin.out ∧
      tx.isCoinbase = coin.coinbase := by
  rw [checkProof] at hok
  split at hok
  · cases hok
  · next height hheight =>
      split at hok
      · cases hok
      · split at hok
        · cases hok
        · next htxid =>
            split at hok
            · cases hok
            · next hverify =>
                cases hread : Transaction.readCore u.txCore with
                | error e =>
                    rw [hread] at hok
                    cases hok
                | ok x =>
                    rw [hread] at hok
                    have hout : checkOutput w u height x.1 = some (h, coin) := by
                      simpa [Except.map] using hok
                    exact ⟨height, x.1, x.2, heightOf_lt hheight, not_not.mp htxid,
                      by simpa using hverify, rfl, checkOutput_some hout⟩

/-- What passes the checks is the output it claims to be: the path leads to a
transaction of the block, whose encoding is the one that came with the proof. -/
theorem checkProof_backed {c : LightClient} {txsOf : Nat → List Transaction}
    (hroots : c.CommitsTo txsOf) {strings : List (Ctx × Bytes)} (hfree : CollisionFree strings)
    (hblocks : ∀ h < c.headers.length, ∀ x ∈ blockStrings (txsOf h), x ∈ strings)
    {w : Wallet} {u : UtxoProof} (hu : ∀ x ∈ u.strings, x ∈ strings) {h : Nat}
    {coin : WalletCoin} (hok : c.checkProof w u = .ok (some (h, coin))) :
    c.Backed txsOf coin := by
  obtain ⟨h, tx, rest, hlt, htxid, hverify, hread, hop, hheight, hout, hcoinbase⟩ :=
    checkProof_some hok
  have hheader : c.headers[h]? = some (c.headers.getD h default) := by
    rw [List.getD_eq_getElem?_getD, List.getElem?_eq_getElem hlt]
    rfl
  have hroot := hroots.root h _ hheader
  have hin := hblocks h hlt
  rw [blockStrings, List.forall_mem_append, List.forall_mem_map, List.forall_mem_map] at hin
  rw [UtxoProof.strings, List.forall_mem_cons, List.forall_mem_map] at hu
  rw [hroot] at hverify
  obtain ⟨t, ht, hcore⟩ := merkleVerify_sound hfree hu.1 hu.2 hin.1 hin.2 hverify
  have hdecode := decodes_txCore (hroots.limits h t ht) []
  rw [List.append_nil, writeCore_core, hcore, hread] at hdecode
  cases hdecode
  refine ⟨h, _, t, hheight, hheader, hroot, ht, ?_, ?_, hcoinbase⟩
  · rw [Transaction.txid, hcore, htxid, hop]
  · rw [hop]
    exact hout

/-! ## One reply -/

/-- The confirmed coins of a scan are backed. -/
def ScanBacked (c : LightClient) (txsOf : Nat → List Transaction) (s : Scan) : Prop :=
  ∀ o coin, s.coins.lookup o = some coin → 0 ≤ coin.height → c.Backed txsOf coin

theorem ScanBacked.of_coins {c : LightClient} {txsOf : Nat → List Transaction} {s s' : Scan}
    (hs : c.ScanBacked txsOf s) (h : s'.coins = s.coins) : c.ScanBacked txsOf s' := by
  rw [ScanBacked, h]
  exact hs

theorem ScanBacked.insert {c : LightClient} {txsOf : Nat → List Transaction} {s s' : Scan}
    (hs : c.ScanBacked txsOf s) {coin : WalletCoin}
    (h : s'.coins = s.coins.insert coin.op coin)
    (hcoin : 0 ≤ coin.height → c.Backed txsOf coin) : c.ScanBacked txsOf s' := by
  intro o x hx
  rw [h, Maps.lookup_insert_ite] at hx
  split at hx
  · cases hx
    exact hcoin
  · exact hs o x hx

theorem ScanBacked.addChecked {c : LightClient} {txsOf : Nat → List Transaction} {s : Scan}
    (hs : c.ScanBacked txsOf s) {h : Nat} {coin : WalletCoin}
    (hcoin : c.Backed txsOf coin) : c.ScanBacked txsOf (s.addChecked h coin) := by
  rw [Scan.addChecked]
  split
  · exact hs.insert rfl fun _ => hcoin
  · exact hs

omit [Crypto] in
/-- A section keeps what its items keep, wherever it breaks off. -/
theorem takeSection_keeps {P : Scan → Prop} {item : Bytes → Scan → Scan × Option Bytes}
    (hitem : ∀ bs s, P s → P (item bs s).1) (bs : Bytes) {s : Scan} (hs : P s) :
    P (Scan.takeSection item bs s).1 := by
  have hmany : ∀ (n : Nat) (bs : Bytes) {s : Scan}, P s → P (Scan.takeMany item n bs s).1 := by
    intro n
    induction n with
    | zero => exact fun _ _ hs => hs
    | succ n ih =>
        intro bs s hs
        have h1 := hitem bs s hs
        rw [Scan.takeMany]
        split
        · next heq =>
            rw [heq] at h1
            exact h1
        · next bs' heq =>
            rw [heq] at h1
            exact ih bs' h1
  rw [Scan.takeSection]
  split
  · exact hs
  · next n bs' _ => exact hmany n.toNat bs' hs

/-- A reply keeps what its three sections keep, wherever it breaks off. -/
theorem readUtxos_keeps {P : Scan → Prop} {c : LightClient} {w : Wallet} {reply : Bytes}
    {s : Scan} (hs : P s)
    (hproofs : ∀ bs, readUtxosHead reply = .ok ((), bs) →
      P (Scan.takeSection (c.takeProof w) bs s).1)
    (hspent : ∀ bs s, P s → P (Scan.takeSpent bs s).1)
    (hunconfirmed : ∀ bs s, P s → P (Scan.takeUnconfirmed w bs s).1) :
    P (c.readUtxos w reply s) := by
  rw [readUtxos]
  split
  · exact hs
  · next bs hhead =>
      have h1 := hproofs bs hhead
      split
      · next heq =>
          rw [heq] at h1
          exact h1
      · next bs2 heq =>
          rw [heq] at h1
          have h2 := takeSection_keeps hspent bs2 h1
          split
          · next heq2 =>
              rw [heq2] at h2
              exact h2
          · next bs3 heq2 =>
              rw [heq2] at h2
              exact takeSection_keeps hunconfirmed bs3 h2

theorem readUtxos_answered (c : LightClient) (w : Wallet) (reply : Bytes) (s : Scan) :
    (c.readUtxos w reply s).answered = s.answered := by
  refine readUtxos_keeps (P := fun t => t.answered = s.answered) rfl ?_ ?_ ?_
  · intro bs _
    refine takeSection_keeps (P := fun t => t.answered = s.answered) ?_ bs rfl
    intro bs t ht
    rw [takeProof]
    split
    · exact ht
    · split
      · exact ht
      · exact ht
      · rw [Scan.addChecked]
        split <;> exact ht
  · intro bs t ht
    rw [Scan.takeSpent]
    split <;> exact ht
  · intro bs t ht
    rw [Scan.takeUnconfirmed]
    split
    · exact ht
    · split <;> exact ht

section

variable {c : LightClient} {txsOf : Nat → List Transaction} (hroots : c.CommitsTo txsOf)
  {strings : List (Ctx × Bytes)} (hfree : CollisionFree strings)
  (hblocks : ∀ h < c.headers.length, ∀ x ∈ blockStrings (txsOf h), x ∈ strings)

include hroots hfree hblocks

theorem takeProofs_backed {w : Wallet} (n : Nat) {bs : Bytes} {s : Scan}
    (hs : c.ScanBacked txsOf s)
    (hp : ∀ u ∈ proofsFrom n bs, ∀ x ∈ u.strings, x ∈ strings) :
    c.ScanBacked txsOf (Scan.takeMany (c.takeProof w) n bs s).1 := by
  induction n generalizing bs s with
  | zero => exact hs
  | succ n ih =>
      rw [proofsFrom] at hp
      rw [Scan.takeMany, takeProof]
      cases hread : UtxoProof.read bs with
      | error e => exact hs
      | ok x =>
          obtain ⟨u, rest⟩ := x
          rw [hread] at hp
          rw [List.forall_mem_cons] at hp
          simp only
          cases hcheck : c.checkProof w u with
          | error e => exact hs
          | ok r =>
              cases r with
              | none => exact ih hs hp.2
              | some x =>
                  have hcoin := checkProof_backed hroots hfree hblocks hp.1 hcheck
                  exact ih (hs.addChecked hcoin) hp.2

/-- Whatever the reply is. -/
theorem readUtxos_backed {w : Wallet} {reply : Bytes} {s : Scan} (hs : c.ScanBacked txsOf s)
    (hp : ∀ u ∈ replyProofs reply, ∀ x ∈ u.strings, x ∈ strings) :
    c.ScanBacked txsOf (c.readUtxos w reply s) := by
  refine readUtxos_keeps hs ?_ ?_ ?_
  · intro bs hhead
    rw [replyProofs, hhead] at hp
    simp only [sectionProofs] at hp
    rw [Scan.takeSection]
    cases hn : ByteReader.varintMax (UInt64.ofNat maxUtxoEntries) bs with
    | error e => exact hs
    | ok x =>
        rw [hn] at hp
        exact takeProofs_backed hroots hfree hblocks x.1.toNat hs hp
  · intro bs s hs
    rw [Scan.takeSpent]
    split <;> exact hs
  · intro bs s hs
    rw [Scan.takeUnconfirmed]
    split
    · exact hs
    · next o out rest _ =>
        split
        · -- what comes from a mempool is stored as unconfirmed
          refine @ScanBacked.insert _ c txsOf s _ hs ⟨o, out, -1, false, false⟩ rfl ?_
          intro h
          exact absurd h (by simp)
        · exact hs

/-! ## A call -/

omit hroots hfree hblocks in
theorem askPeer_answered (c : LightClient) (w : Wallet) (peer : LightPeer)
    (requests : List (List Hash256)) (st : Scan × Nat) :
    ∀ reply ∈ st.1.answered, reply ∈ (c.askPeer w peer requests st).1.answered := by
  induction requests generalizing st with
  | nil => exact fun _ h => h
  | cons addrs rest ih =>
      intro reply hr
      obtain ⟨s, tick⟩ := st
      rw [askPeer]
      split
      · exact hr
      · next r _ =>
          apply ih
          rw [readUtxos_answered]
          exact List.mem_append_left [r] hr

theorem askPeer_backed {w : Wallet} {peer : LightPeer} (requests : List (List Hash256))
    {st : Scan × Nat} (hs : c.ScanBacked txsOf st.1)
    (hp : ∀ reply ∈ (c.askPeer w peer requests st).1.answered, ∀ u ∈ replyProofs reply,
      ∀ x ∈ u.strings, x ∈ strings) :
    c.ScanBacked txsOf (c.askPeer w peer requests st).1 := by
  induction requests generalizing st with
  | nil => exact hs
  | cons addrs rest ih =>
      obtain ⟨s, tick⟩ := st
      rw [askPeer] at hp ⊢
      cases hreply : peer.exchange tick .getUtxos (writeGetUtxos addrs) with
      | none => exact hs
      | some reply =>
          rw [hreply] at hp
          have hin : reply ∈ (c.askPeer w peer rest (c.readUtxos w reply
              { s with answered := s.answered ++ [reply] }, tick + 1)).1.answered := by
            apply askPeer_answered
            rw [readUtxos_answered]
            exact List.mem_append_right s.answered (List.mem_singleton.mpr rfl)
          exact ih (readUtxos_backed hroots hfree hblocks (hs.of_coins rfl) (hp reply hin)) hp

theorem scanPeers_backed (peers : List LightPeer) {w : Wallet} {tick : Nat}
    (hp : ∀ reply ∈ (c.scanPeers peers w tick).1.answered, ∀ u ∈ replyProofs reply,
      ∀ x ∈ u.strings, x ∈ strings) :
    c.ScanBacked txsOf (c.scanPeers peers w tick).1 := by
  rw [scanPeers] at hp ⊢
  have hempty : c.ScanBacked txsOf ({}, tick).1 := fun _ _ h => nomatch h
  revert hempty hp
  generalize (({}, tick) : Scan × Nat) = st
  intro hp hs
  induction peers using List.reverseRecOn with
  | nil => exact hs
  | append_singleton peers peer ih =>
      rw [List.foldl_append, List.foldl_cons, List.foldl_nil] at hp ⊢
      refine askPeer_backed hroots hfree hblocks _ (ih ?_) hp
      intro reply hr
      exact hp reply (askPeer_answered c w peer _ _ reply hr)

end

/-- A round asks the peers for what the wallet watches at its start, and hands
over what it has found. -/
theorem mem_refreshRounds {c : LightClient} {peers : List LightPeer} {k : Nat} {w : Wallet}
    {tick : Nat} {r : Scan × Wallet} (hr : r ∈ (c.refreshRounds peers k w tick).1) :
    ∃ w' tick', r.1 = (c.scanPeers peers w' tick').1 ∧ r.2 = c.finishScan w' r.1 := by
  induction k generalizing w tick with
  | zero => cases hr
  | succ k ih =>
      simp only [refreshRounds] at hr
      split at hr
      · cases hr
      · split at hr
        · rw [List.mem_singleton.mp hr]
          exact ⟨w, tick, rfl, rfl⟩
        · rcases List.mem_cons.mp hr with rfl | hr
          · exact ⟨w, tick, rfl, rfl⟩
          · exact ih hr

omit [Crypto] in
theorem mem_scannedCoins {s : Scan} {coin : WalletCoin} (h : coin ∈ scannedCoins s) :
    ∃ o x, s.coins.lookup o = some x ∧ coin = { x with locked := s.pendingSpent.contains o } := by
  obtain ⟨e, he, rfl⟩ := List.mem_map.mp h
  rw [List.mem_insertionSort] at he
  exact ⟨e.1, e.2, Maps.mem_pairs.mp he, rfl⟩

/-- For any peers, whatever they answer: each coin with a height in each list
that a round hands to `replace_coins` is an output of a transaction that the
client's own header of that height commits to. -/
theorem refresh_wallet_backed {c : LightClient} {peers : List LightPeer} {w : Wallet}
    {txsOf : Nat → List Transaction} (hroots : c.CommitsTo txsOf)
    (hfree : CollisionFree (c.refreshStrings peers w txsOf)) :
    ∀ r ∈ (c.refreshRounds peers maxRefreshRounds w c.tick).1, ∀ coin ∈ scannedCoins r.1,
      0 ≤ coin.height → c.Backed txsOf coin := by
  intro r hr coin hcoin hheight
  have hblocks : ∀ h < c.headers.length, ∀ x ∈ blockStrings (txsOf h),
      x ∈ c.refreshStrings peers w txsOf := by
    intro h hh x hx
    exact List.mem_append_left _ (List.mem_flatMap.mpr ⟨h, List.mem_range.mpr hh, hx⟩)
  have hreplies : ∀ reply ∈ r.1.answered, ∀ u ∈ replyProofs reply, ∀ x ∈ u.strings,
      x ∈ c.refreshStrings peers w txsOf := by
    intro reply hreply u hu x hx
    exact List.mem_append_right _ (List.mem_flatMap.mpr ⟨r, hr, List.mem_flatMap.mpr
      ⟨reply, hreply, List.mem_flatMap.mpr ⟨u, hu, hx⟩⟩⟩)
  obtain ⟨o, x, hx, rfl⟩ := mem_scannedCoins hcoin
  obtain ⟨w', tick', hscan, _⟩ := mem_refreshRounds hr
  rw [hscan] at hx hreplies
  exact scanPeers_backed hroots hfree hblocks peers hreplies o x hx hheight

end LightClient

end QuantCore

namespace QuantCore.LightClient

attribute [local instance] plainCrypto

/-! ## A peer with a coin -/

/-- The two transactions of a block, the second of which pays address 7. -/
def paidTxs : List Transaction :=
  [{ lockHeight := 1 }, { outs := [⟨5, qntAsset, 7⟩] }]

def paidClient : LightClient where
  headers := [{ merkleRoot := merkleRoot (paidTxs.map Transaction.txid) }]
  hashes := [9]

def paidProof : UtxoProof where
  op := ⟨(paidTxs.getD 1 {}).txid, 0⟩
  coin := ⟨⟨5, qntAsset, 7⟩, 0, true⟩
  block := 9
  txCore := (paidTxs.getD 1 {}).writeCore
  txIndex := 1
  txCount := 2
  merkle := [(paidTxs.getD 0 {}).txid]

def payingPeer : LightPeer where
  addr := ""
  height := 0
  exchange := fun _ _ _ => some (Writer.u64le 0 ++ Writer.hash 9 ++ Writer.size 1 ++
    paidProof.write ++ Writer.size 0 ++ Writer.size 0)

/-- A wallet whose key of index 0 has address 7. -/
def payeeWallet : Wallet := Wallet.deriveNext ⟨.main, fun i => 7 + i.toNat, [], 0, ∅, ∅, ∅, 0, -1⟩

theorem paidClient_commitsTo : paidClient.CommitsTo fun _ => paidTxs where
  limits := by
    intro _ t ht
    rw [paidTxs, List.mem_cons, List.mem_singleton] at ht
    rcases ht with rfl | rfl <;>
      exact
        { ins := by decide
          outs := by decide
          ops := by decide
          op := fun _ ho => nomatch ho
          extra := by decide
          witness := by decide
          signature := fun _ hw => nomatch hw }
  root := by
    intro h header hh
    cases h with
    | zero =>
        cases hh
        rfl
    | succ h => cases hh

theorem refresh_wallet_backed_payment :
    ∃ r ∈ (paidClient.refreshRounds [payingPeer] maxRefreshRounds payeeWallet paidClient.tick).1,
      ∃ coin ∈ scannedCoins r.1, 0 ≤ coin.height ∧
        paidClient.Backed (fun _ => paidTxs) coin := by
  have hfree : CollisionFree (paidClient.refreshStrings [payingPeer] payeeWallet
      fun _ => paidTxs) := by
    rw [CollisionFree]
    decide +kernel
  obtain ⟨r, hr, coin, hcoin, hheight⟩ :
      ∃ r ∈ (paidClient.refreshRounds [payingPeer] maxRefreshRounds payeeWallet
        paidClient.tick).1, ∃ coin ∈ scannedCoins r.1, 0 ≤ coin.height := by
    decide +kernel
  exact ⟨r, hr, coin, hcoin, hheight,
    refresh_wallet_backed paidClient_commitsTo hfree r hr coin hcoin hheight⟩

end QuantCore.LightClient
