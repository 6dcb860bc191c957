import QuantCore.Crypto.Instances
import QuantCore.Light.Session

/-!
# What a peer can throw at the light client

`connect`, `sync_headers` and `broadcast` let the error of a reader out; each
returns exactly if every message of the kind it decodes, among those it comes
to, can be read. `refresh_wallet` ends a reply at its first error, and has errors
of its own only.
-/

namespace QuantCore

open Loop

/-! ## Connecting -/

namespace Handshake

theorem settle_ne_throw (s : Handshake) (e : String) : s.settle ≠ .throw e := by
  rw [settle]
  split
  · exact fun h => by cases h
  · exact fun h => by cases h

/-- A round throws on a version message that does not decode, and on nothing
else. -/
theorem step_throws {genesis : Hash256} {s : Handshake} {m : Cmd × Bytes} {e : String} :
    step genesis s m = .throw e ↔ m.1 = Cmd.version ∧ VersionMsg.decode m.2 = .error e := by
  rw [step]
  by_cases hv : m.1 = Cmd.version
  · rw [if_pos hv]
    cases VersionMsg.decode m.2 with
    | error e' =>
        simp only [Round.throw.injEq, Except.error.injEq, and_iff_right hv]
    | ok x =>
        refine iff_of_false (fun h => ?_) fun h => by cases h.2
        simp only at h
        split at h
        · cases h
        · exact settle_ne_throw _ _ h
  · rw [if_neg hv]
    refine iff_of_false (fun h => ?_) fun h => hv h.1
    split at h
    · exact settle_ne_throw _ _ h
    · exact settle_ne_throw _ _ h

end Handshake

namespace LightClient

/-- Each version message that the handshake comes to decodes. -/
def VersionsRead (p : ChainParams) (c : LightClient) (nonce : UInt64) (a : Candidate) : Prop :=
  ∀ link, a.link = some link → link.takes Cmd.version (c.hello p nonce a.addr).encode = true →
    ∀ s m, Comes (Handshake.step p.genesisHash) {}
        (link.messages Cmd.version (c.hello p nonce a.addr).encode) s m →
      m.1 = Cmd.version → ∃ v, VersionMsg.decode m.2 = .ok v

theorem handshake_returns {p : ChainParams} {c : LightClient} {nonce : UInt64} {a : Candidate} :
    (∀ link, a.link = some link → ∃ v, c.handshake p nonce a.addr link = .ok v) ↔
      c.VersionsRead p nonce a := by
  refine forall₂_congr fun link _ => ?_
  rw [handshake]
  by_cases ht : link.takes Cmd.version (c.hello p nonce a.addr).encode = true
  · simp only [ht, if_true, true_implies]
    rw [run_returns]
    refine forall₃_congr fun s m _ => ?_
    constructor
    · intro h hv
      cases hd : VersionMsg.decode m.2 with
      | error e => exact absurd (Handshake.step_throws.mpr ⟨hv, hd⟩) (h e)
      | ok v => exact ⟨v, rfl⟩
    · intro h e he
      obtain ⟨hv, hd⟩ := Handshake.step_throws.mp he
      obtain ⟨v, hok⟩ := h hv
      cases hd.symm.trans hok
  · rw [if_neg ht]
    exact iff_of_true ⟨none, rfl⟩ fun h => absurd h ht

/-- Every candidate that is tried sends version messages that decode. -/
def ConnectRead (p : ChainParams) (c : LightClient) (nonce : UInt64) (want : Int)
    (candidates : List Candidate) (peers : List (NetAddr × VersionMsg)) : Prop :=
  ∀ now a, Comes (c.connectStep p nonce want) peers candidates now a →
    (now.length : Int) < want → c.VersionsRead p nonce a

theorem connect_returns {p : ChainParams} {c : LightClient} {nonce : UInt64} {want : Int}
    {candidates : List Candidate} {peers : List (NetAddr × VersionMsg)} :
    (∃ after, c.connect p nonce want candidates peers = .ok after) ↔
      c.ConnectRead p nonce want candidates peers := by
  rw [connect, run_returns]
  refine forall₃_congr fun now a _ => ?_
  rw [← handshake_returns, connectStep]
  by_cases hwant : (now.length : Int) ≥ want
  · rw [if_pos hwant]
    exact iff_of_true (fun e h => by cases h) fun h => absurd h (not_lt.mpr hwant)
  · rw [if_neg hwant]
    simp only [not_le.mp hwant, true_implies]
    cases a.link with
    | none => exact iff_of_true (fun e h => by cases h) fun link h => by cases h
    | some link =>
        simp only [Option.some.injEq, forall_eq']
        cases c.handshake p nonce a.addr link with
        | error e =>
            refine iff_of_false (fun h => h e rfl) fun hv => ?_
            obtain ⟨v, hv⟩ := hv
            cases hv
        | ok v =>
            refine iff_of_true (fun e h => ?_) ⟨v, rfl⟩
            cases v with
            | none => cases h
            | some ver =>
                simp only at h
                split at h
                · cases h
                · cases h

/-! ## Headers -/

section Sync

variable [Crypto] {env : LightEnv} {p : ChainParams}

/-- The replies that the loop reads. -/
def syncReplies (env : LightEnv) (p : ChainParams) (peer : LightPeer) :
    Nat → LightClient → List Bytes
  | 0, _ => []
  | k + 1, c =>
      match peer.exchange c.tick .getHeaders (c.headersRequest p) with
      | none => []
      | some reply =>
          reply :: match c.syncRound env p peer.addr reply with
            | (_, some _) => []
            | (c', none) => syncReplies env p peer k c'

theorem appendBatch_ne_thrown (addr : String) (hs : List BlockHeader) (c : LightClient)
    (e : String) : (appendBatch env p addr hs c).2 ≠ some (.thrown e) := by
  induction hs generalizing c with
  | nil => exact fun h => by cases h
  | cons h hs ih =>
      rw [appendBatch]
      split
      · exact fun h => by cases h
      · exact ih _

omit [Crypto] in
theorem attach_ne_thrown {c : LightClient} {prev : Hash256} {batch : List BlockHeader}
    {e : String} : c.attach prev batch ≠ .error (.thrown e) := by
  rw [attach]
  split
  · exact fun h => by cases h
  · split
    · exact fun h => by cases h
    · split
      · exact fun h => by cases h
      · split
        · exact fun h => by cases h
        · exact fun h => by cases h

/-- A round throws exactly if its reply is no batch of headers. -/
theorem syncRound_thrown {addr : String} {c : LightClient} {reply : Bytes} {e : String} :
    (c.syncRound env p addr reply).2 = some (.thrown e) ↔ readBatch reply = .error e := by
  rw [syncRound]
  cases readBatch reply with
  | error e' => simp only [Option.some.injEq, SyncExit.thrown.injEq, Except.error.injEq]
  | ok batch =>
      refine iff_of_false (fun h => ?_) fun h => by cases h
      cases batch with
      | nil => cases h
      | cons x xs =>
          simp only at h
          split at h
          · next e' he =>
              cases h
              exact attach_ne_thrown he
          · next c' _ =>
              have happend : (appendBatch env p addr (x :: xs) c').2 ≠ some (.thrown e) :=
                appendBatch_ne_thrown addr (x :: xs) c' e
              revert h happend
              cases appendBatch env p addr (x :: xs) c' with
              | mk c'' exit =>
                  intro h happend
                  cases exit with
                  | some e' => exact happend h
                  | none =>
                      rw [endRound] at h
                      split at h
                      · cases h
                      · cases h

theorem syncLoop_thrown (peer : LightPeer) (k : Nat) (c : LightClient) :
    (∃ e, (syncLoop env p peer k c).2 = .thrown e) ↔
      ∃ reply ∈ syncReplies env p peer k c, ∃ e, readBatch reply = .error e := by
  induction k generalizing c with
  | zero =>
      refine iff_of_false (fun h => ?_) fun h => ?_
      · obtain ⟨e, he⟩ := h
        cases he
      · obtain ⟨reply, hr, -⟩ := h
        cases hr
  | succ k ih =>
      rw [syncLoop, syncReplies]
      cases peer.exchange c.tick .getHeaders (c.headersRequest p) with
      | none =>
          refine iff_of_false (fun h => ?_) fun h => ?_
          · obtain ⟨e, he⟩ := h
            cases he
          · obtain ⟨reply, hr, -⟩ := h
            cases hr
      | some reply =>
          have hround : ∀ e, (c.syncRound env p peer.addr reply).2 = some (.thrown e) ↔
              readBatch reply = .error e := fun e => syncRound_thrown
          simp only
          revert hround
          cases c.syncRound env p peer.addr reply with
          | mk c' exit =>
              intro hround
              cases exit with
              | some exit =>
                  simp only [List.mem_singleton, exists_eq_left]
                  refine exists_congr fun e => ?_
                  rw [← hround e, Option.some.injEq]
              | none =>
                  have hread : ¬ ∃ e, readBatch reply = .error e := by
                    rintro ⟨e, he⟩
                    cases (hround e).mpr he
                  simp only [List.mem_cons, exists_eq_or_imp, hread, false_or]
                  exact ih c'

/-- Every reply that is read is a batch of headers. -/
def HeadersRead (env : LightEnv) (p : ChainParams) (peers : List LightPeer) (c : LightClient) :
    Prop :=
  ∀ peer, bestPeer peers = some peer → ∀ reply ∈ syncReplies env p peer syncRounds c,
    ∃ batch, readBatch reply = .ok batch

theorem syncHeaders_returns {peers : List LightPeer} {c : LightClient} :
    (∀ e, (syncHeaders env p peers c).2 ≠ .thrown e) ↔ HeadersRead env p peers c := by
  rw [HeadersRead, syncHeaders]
  cases bestPeer peers with
  | none => exact iff_of_true (fun e h => by cases h) fun peer h => by cases h
  | some peer =>
      simp only [Option.some.injEq, forall_eq']
      have hloop : (∃ e, (syncLoop env p peer syncRounds c).2 = .thrown e) ↔
          ∃ reply ∈ syncReplies env p peer syncRounds c, ∃ e, readBatch reply = .error e :=
        syncLoop_thrown peer syncRounds c
      have hnot := not_congr hloop
      simp only [not_exists, not_and] at hnot
      have hbatch : (∀ reply ∈ syncReplies env p peer syncRounds c, ∀ e,
            ¬ readBatch reply = .error e) ↔
          ∀ reply ∈ syncReplies env p peer syncRounds c, ∃ batch, readBatch reply = .ok batch := by
        refine forall₂_congr fun reply _ => ?_
        cases readBatch reply with
        | error e =>
            refine iff_of_false (fun h => h e rfl) fun hb => ?_
            obtain ⟨b, hb⟩ := hb
            cases hb
        | ok batch => exact iff_of_true (fun e h => by cases h) ⟨batch, rfl⟩
      refine Iff.trans ?_ (hnot.trans hbatch)
      cases syncLoop env p peer syncRounds c with
      | mk c' exit =>
          cases exit with
          | done => exact iff_of_true (fun e h => by cases h) fun e h => by cases h
          | failed e' => exact iff_of_true (fun e h => by cases h) fun e h => by cases h
          | thrown e' => exact Iff.rfl

end Sync

/-! ## Broadcasting -/

/-- A rejection that can be read as far as it is read. -/
def RejectRead (id : Hash256) (wantsErr : Bool) (payload : Bytes) : Prop :=
  ∃ h bs, (do let _ ← ByteReader.u8; ByteReader.hash : ByteReader Hash256) payload = .ok (h, bs) ∧
    (h = id → wantsErr = true → ∃ text, ByteReader.str 500 bs = .ok text)

theorem listenStep_throws {id : Hash256} {wantsErr : Bool} {m : Cmd × Bytes} :
    (∀ e, listenStep id wantsErr () m ≠ .throw e) ↔
      (m.1 = Cmd.reject → RejectRead id wantsErr m.2) := by
  rw [listenStep]
  by_cases hr : m.1 = Cmd.reject
  · rw [if_pos hr]
    simp only [hr, true_implies, RejectRead]
    generalize (do let _ ← ByteReader.u8; ByteReader.hash : ByteReader Hash256) m.2 = head
    cases head with
    | error e =>
        refine iff_of_false (fun h => h e rfl) fun h => ?_
        obtain ⟨_, _, h, _⟩ := h
        cases h
    | ok x =>
        obtain ⟨h, bs⟩ := x
        have hone : (∃ h' bs', (Except.ok (h, bs) : Except String (Hash256 × Bytes)) =
            .ok (h', bs') ∧ (h' = id → wantsErr = true → ∃ text, ByteReader.str 500 bs' = .ok text)) ↔
            (h = id → wantsErr = true → ∃ text, ByteReader.str 500 bs = .ok text) := by
          refine ⟨fun hx => ?_, fun hx => ⟨h, bs, rfl, hx⟩⟩
          obtain ⟨h', bs', he, hx⟩ := hx
          cases he
          exact hx
        rw [hone]
        simp only
        by_cases hid : h = id
        · rw [if_pos hid]
          cases wantsErr with
          | false => exact iff_of_true (fun e h => by cases h) fun _ h => by cases h
          | true =>
              simp only [if_true, hid, true_implies]
              cases ByteReader.str 500 bs with
              | error e =>
                  refine iff_of_false (fun h => h e rfl) fun h => ?_
                  obtain ⟨_, h⟩ := h
                  cases h
              | ok text => exact iff_of_true (fun e h => by cases h) ⟨text, rfl⟩
        · rw [if_neg hid]
          exact iff_of_true (fun e h => by cases h) fun h => absurd h hid
  · rw [if_neg hr]
    exact iff_of_true (fun e h => by cases h) fun h => absurd h hr

variable [Crypto]

/-- Each rejection that is come to can be read as far as it is read. -/
def RejectsRead (tx : Transaction) (wantsErr : Bool) (links : List Link) : Prop :=
  (∃ l ∈ links, l.takes Cmd.txMsg tx.writeFull = true) →
    ∀ s link, Comes (broadcastStep tx wantsErr) () links s link →
      ∀ s' m, Comes (listenStep tx.txid wantsErr) () (link.messages Cmd.txMsg tx.writeFull) s' m →
        m.1 = Cmd.reject → RejectRead tx.txid wantsErr m.2

theorem broadcastStep_throws {tx : Transaction} {wantsErr : Bool} {link : Link} :
    (∀ e, broadcastStep tx wantsErr () link ≠ .throw e) ↔
      ∀ s m, Comes (listenStep tx.txid wantsErr) () (link.messages Cmd.txMsg tx.writeFull) s m →
        m.1 = Cmd.reject → RejectRead tx.txid wantsErr m.2 := by
  have hlisten : (∃ r, run (listenStep tx.txid wantsErr) (fun _ => (none : Option Bytes)) ()
      (link.messages Cmd.txMsg tx.writeFull) = .ok r) ↔ _ := run_returns
  rw [broadcastStep]
  have hsteps : (∀ s m, Comes (listenStep tx.txid wantsErr) ()
      (link.messages Cmd.txMsg tx.writeFull) s m → ∀ e, listenStep tx.txid wantsErr s m ≠ .throw e) ↔
      ∀ s m, Comes (listenStep tx.txid wantsErr) () (link.messages Cmd.txMsg tx.writeFull) s m →
        m.1 = Cmd.reject → RejectRead tx.txid wantsErr m.2 :=
    forall₃_congr fun s m _ => listenStep_throws
  rw [← hsteps, ← hlisten]
  cases run (listenStep tx.txid wantsErr) (fun _ => none) ()
      (link.messages Cmd.txMsg tx.writeFull) with
  | error e =>
      refine iff_of_false (fun h => h e rfl) fun h => ?_
      obtain ⟨_, h⟩ := h
      cases h
  | ok r =>
      refine iff_of_true (fun e h => ?_) ⟨r, rfl⟩
      cases r with
      | none => cases h
      | some text => cases h

theorem broadcast_returns {tx : Transaction} {wantsErr : Bool} {links : List Link} :
    (∃ r, broadcast tx wantsErr links = .ok r) ↔ RejectsRead tx wantsErr links := by
  rw [broadcast, RejectsRead]
  by_cases hnone : ∃ l ∈ links, l.takes Cmd.txMsg tx.writeFull = true
  · obtain ⟨l, hl, htakes⟩ := hnone
    have hempty : links.isEmpty = false := by
      cases links with
      | nil => cases hl
      | cons l' links => rfl
    have hall : (links.all fun l => !l.takes Cmd.txMsg tx.writeFull) = false := by
      rw [List.all_eq_false]
      exact ⟨l, hl, by rw [htakes]; exact Bool.false_ne_true⟩
    simp only [hempty, hall, Bool.false_eq_true, if_false]
    rw [imp_iff_right ⟨l, hl, htakes⟩]
    have hsteps : (∀ s link, Comes (broadcastStep tx wantsErr) () links s link →
        ∀ e, broadcastStep tx wantsErr s link ≠ .throw e) ↔ _ :=
      forall₃_congr fun s link _ => broadcastStep_throws
    have hrun : (∃ r, run (broadcastStep tx wantsErr) (fun _ => (none : Option Bytes)) () links =
        .ok r) ↔ _ := run_returns
    rw [← hsteps, ← hrun]
    cases run (broadcastStep tx wantsErr) (fun _ => none) () links with
    | error e =>
        refine iff_of_false (fun h => by cases h.choose_spec) fun h => ?_
        obtain ⟨_, h⟩ := h
        cases h
    | ok r =>
        refine iff_of_true ?_ ⟨r, rfl⟩
        cases r with
        | none => exact ⟨_, rfl⟩
        | some text => exact ⟨_, rfl⟩
  · refine iff_of_true ?_ fun h => absurd h hnone
    split
    · exact ⟨_, rfl⟩
    · have hall : (links.all fun l => !l.takes Cmd.txMsg tx.writeFull) = true := by
        rw [List.all_eq_true]
        intro l hl
        rw [Bool.not_eq_true', Bool.eq_false_iff]
        exact fun htakes => hnone ⟨l, hl, htakes⟩
      rw [if_pos hall]
      exact ⟨_, rfl⟩

/-! ## All calls -/

theorem refreshWallet_result (c : LightClient) (peers : List LightPeer) (w : Wallet) :
    (c.refreshWallet peers w).2.2 = .ok () ∨
      (c.refreshWallet peers w).2.2 = .error "not connected" ∨
      (c.refreshWallet peers w).2.2 = .error "no peer answered" := by
  rw [refreshWallet]
  split
  · exact .inr (.inl rfl)
  · simp only
    split
    · exact .inl rfl
    · exact .inr (.inr rfl)

/-- Each call returns, whatever its peers send, exactly if what it decodes
outside a try block can be read; `refresh_wallet` always returns, with an error
of its own if any. -/
theorem calls_return (env : LightEnv) (p : ChainParams) (c : LightClient) (nonce : UInt64)
    (want : Int) (candidates : List Candidate) (connected : List (NetAddr × VersionMsg))
    (peers : List LightPeer) (w : Wallet) (tx : Transaction) (wantsErr : Bool)
    (links : List Link) :
    ((∃ after, c.connect p nonce want candidates connected = .ok after) ↔
      c.ConnectRead p nonce want candidates connected) ∧
    ((∀ e, (syncHeaders env p peers c).2 ≠ .thrown e) ↔ HeadersRead env p peers c) ∧
    ((∃ r, broadcast tx wantsErr links = .ok r) ↔ RejectsRead tx wantsErr links) ∧
    ((c.refreshWallet peers w).2.2 = .ok () ∨
      (c.refreshWallet peers w).2.2 = .error "not connected" ∨
      (c.refreshWallet peers w).2.2 = .error "no peer answered") :=
  ⟨connect_returns, syncHeaders_returns, broadcast_returns, refreshWallet_result c peers w⟩

end LightClient

/-! ## Empty payloads -/

/-- A connection that takes everything, and answers with an empty message. -/
def emptyLink (cmd : Cmd) : Link := ⟨fun _ _ => true, fun _ _ => [(cmd, [])]⟩

def emptyPeer : LightPeer := ⟨"", 0, fun _ _ _ => some []⟩

/-- A client that has the genesis header. -/
def freshClient : LightClient := { headers := [default], hashes := [0] }

/-- An empty version message, batch of headers or rejection is thrown. -/
theorem calls_throw :
    letI := plainCrypto
    freshClient.connect (paramsFor .regtest) 1 1 [⟨default, some (emptyLink Cmd.version)⟩] [] =
      .error "unexpected end of data" ∧
    (LightClient.syncHeaders ⟨fun _ => 0, fun _ => false⟩ (paramsFor .regtest) [emptyPeer]
      freshClient).2 = .thrown "unexpected end of data" ∧
    LightClient.broadcast {} true [emptyLink Cmd.reject] = .error "unexpected end of data" :=
  ⟨rfl, rfl, rfl⟩

end QuantCore
