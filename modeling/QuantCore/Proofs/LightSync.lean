import QuantCore.Proofs.HeaderRules
import Mathlib.Algebra.GroupWithZero.Nat

/-!
# What a synchronisation does to the stored chain

The client's chain is always one that the rules accept, header by header, from
genesis: a batch is appended under the rules, and what is left by a truncation is
a chain as it was. Its work is another matter. A batch that attaches below the
tip is weighed by the difficulty its headers claim, the stored chain is cut, and
only then are the headers checked; the first that is refused ends the call. So
the chain gets weaker exactly when the headers accepted by then have less work
than those that were cut.
-/

namespace QuantCore

open Codec

variable [Crypto]

/-! ## Accepted chains -/

def lastHash (hs : List BlockHeader) : Hash256 := (hs.map BlockHeader.hash).getLastD 0

/-- The chains from genesis of which every header met the rules on top of the
ones before it, at the time it was appended. -/
inductive HeaderChain (p : ChainParams) : List BlockHeader → Prop
  | genesis : HeaderChain p [p.genesis.header]
  | snoc {hs : List BlockHeader} {h : BlockHeader} {now : Int} (hc : HeaderChain p hs)
      (ha : LightClient.checkHeader p now hs (lastHash hs) h = .ok ()) :
      HeaderChain p (hs ++ [h])

theorem HeaderChain.take {p : ChainParams} {hs : List BlockHeader} (hc : HeaderChain p hs)
    (k : Nat) : HeaderChain p (hs.take (k + 1)) := by
  induction hc with
  | genesis =>
      rw [List.take_of_length_le (Nat.le_add_left 1 k)]
      exact .genesis
  | @snoc hs h now hc ha ih =>
      by_cases hk : k + 1 ≤ hs.length
      · rw [List.take_append_of_le_length hk]
        exact ih
      · rw [List.take_of_length_le (by rw [List.length_append, List.length_singleton]; omega)]
        exact .snoc hc ha

omit [Crypto] in
/-- The work of a chain, as a number. -/
def totalWork (hs : List BlockHeader) : Nat :=
  (hs.map fun h => (LightClient.headerWork h).toNat).sum

omit [Crypto] in
theorem totalWork_append (as bs : List BlockHeader) :
    totalWork (as ++ bs) = totalWork as + totalWork bs := by
  rw [totalWork, List.map_append, List.sum_append]
  rfl

namespace LightClient

/-- The hashes are those of the headers. -/
def Wf (c : LightClient) : Prop := c.hashes = c.headers.map BlockHeader.hash

theorem Wf.of_eq {c c' : LightClient} (hc : c.Wf) (hheaders : c'.headers = c.headers)
    (hhashes : c'.hashes = c.hashes) : c'.Wf := by
  rw [Wf, hhashes, hheaders, hc]

theorem Wf.tipHash_eq {c : LightClient} (hc : c.Wf) : c.tipHash = lastHash c.headers := by
  rw [tipHash, hc, lastHash]

theorem Wf.push {c : LightClient} (hc : c.Wf) (h : BlockHeader) : (c.pushHeader h).Wf := by
  show c.hashes ++ [h.hash] = (c.headers ++ [h]).map BlockHeader.hash
  rw [hc, List.map_append, List.map_singleton]

theorem Wf.truncate {c : LightClient} (hc : c.Wf) (k : Nat) :
    Wf { c with headers := c.headers.take (k + 1), hashes := c.hashes.take (k + 1) } := by
  show c.hashes.take (k + 1) = (c.headers.take (k + 1)).map BlockHeader.hash
  rw [hc, List.map_take]

theorem Wf.loadRest (hs : List BlockHeader) {c : LightClient} (hc : c.Wf) :
    (loadRest hs c).Wf := by
  induction hs generalizing c with
  | nil => exact hc
  | cons h hs ih =>
      rw [LightClient.loadRest]
      split
      · exact hc
      · exact ih (hc.push h)

/-- Whatever is in the file. -/
theorem wf_loadHeaders (n : Network) (file : Option Bytes) :
    (loadHeaders (paramsFor n) file).Wf := by
  have hgenesis : Wf { headers := [(paramsFor n).genesis.header]
                       hashes := [(paramsFor n).genesisHash], file } := by
    cases n <;> rfl
  rw [loadHeaders]
  split
  · exact hgenesis
  · split
    · exact hgenesis
    · exact hgenesis.loadRest _

omit [Crypto] in
theorem saveHeaders_eq (env : LightEnv) (c : LightClient) :
    (c.saveHeaders env).headers = c.headers ∧ (c.saveHeaders env).hashes = c.hashes := by
  rw [saveHeaders]
  split <;> exact ⟨rfl, rfl⟩

/-! ## Appending a batch -/

/-- The longest prefix of a batch that the rules accept on top of `chain`, one
reading of the clock for each header. -/
def accepted (env : LightEnv) (p : ChainParams) :
    Nat → List BlockHeader → List BlockHeader → List BlockHeader
  | _, _, [] => []
  | tick, chain, h :: hs =>
      match checkHeader p (env.clock tick) chain (lastHash chain) h with
      | .error _ => []
      | .ok () => h :: accepted env p (tick + 1) (chain ++ [h]) hs

theorem headerChain_accepted (env : LightEnv) {p : ChainParams} {chain : List BlockHeader}
    (hc : HeaderChain p chain) (batch : List BlockHeader) (tick : Nat) :
    HeaderChain p (chain ++ accepted env p tick chain batch) := by
  induction batch generalizing chain tick with
  | nil =>
      rw [accepted, List.append_nil]
      exact hc
  | cons h batch ih =>
      rw [accepted]
      split
      · rw [List.append_nil]
        exact hc
      · next hk =>
          have hrest := ih (.snoc hc hk) (tick + 1)
          rwa [List.append_assoc, List.singleton_append] at hrest

theorem appendBatch_spec (env : LightEnv) (p : ChainParams) (addr : String)
    (batch : List BlockHeader) {c : LightClient} (hc : c.Wf) :
    (appendBatch env p addr batch c).1.Wf ∧
      (appendBatch env p addr batch c).1.headers =
        c.headers ++ accepted env p c.tick c.headers batch := by
  induction batch generalizing c with
  | nil =>
      rw [accepted, List.append_nil]
      exact ⟨hc, rfl⟩
  | cons h batch ih =>
      rw [appendBatch, accepted, appendHeader, hc.tipHash_eq]
      cases hk : checkHeader p (env.clock c.tick) c.headers (lastHash c.headers) h with
      | error why =>
          obtain ⟨hh, hs⟩ := saveHeaders_eq env c.ticked
          simp only [List.append_nil]
          exact ⟨hc.of_eq hh hs, hh⟩
      | ok u =>
          have hticked : c.ticked.Wf := hc
          obtain ⟨hw, hheaders⟩ := ih (hticked.push h)
          refine ⟨hw, hheaders.trans ?_⟩
          show c.headers ++ [h] ++ accepted env p (c.tick + 1) (c.headers ++ [h]) batch = _
          rw [List.append_assoc]
          rfl

/-! ## One round -/

omit [Crypto] in
/-- Whether the call goes on or not, the client is the one the batch left. -/
theorem endRound_fst (n : Nat) (r : LightClient × Option SyncExit) :
    (endRound n r).1 = r.1 := by
  obtain ⟨c, _ | e⟩ := r
  · rw [endRound]
    split <;> rfl
  · rfl

omit [Crypto] in
/-- The batch, whose first header hangs on `prev`, makes the client cut its
chain above the header of index `fork`. -/
structure Replaces (c : LightClient) (prev : Hash256) (batch : List BlockHeader)
    (fork : Nat) : Prop where
  below : prev ≠ c.tipHash
  found : c.forkIndex prev = some fork
  claims : (workOf batch).le (workOf (c.headers.drop (fork + 1))) = false
  shallow : c.headers.length - fork - 1 ≤ maxReorgDepth

omit [Crypto] in
theorem attach_ok {c c' : LightClient} {prev : Hash256} {batch : List BlockHeader}
    (h : c.attach prev batch = .ok c') :
    (prev = c.tipHash ∧ c' = c) ∨ ∃ fork, c.Replaces prev batch fork ∧
      c' = { c with
        headers := c.headers.take (fork + 1), hashes := c.hashes.take (fork + 1) } := by
  rw [attach] at h
  split at h
  · next hprev =>
      cases h
      exact .inl ⟨hprev, rfl⟩
  next hprev =>
  split at h
  · cases h
  next fork hfound =>
  split at h
  · cases h
  next hclaims =>
  split at h
  · cases h
  next hdepth =>
  cases h
  exact .inr ⟨fork, ⟨hprev, hfound, by simpa using hclaims, by omega⟩, rfl⟩

omit [Crypto] in
theorem Replaces.attach_eq {c : LightClient} {prev : Hash256} {batch : List BlockHeader}
    {fork : Nat} (h : c.Replaces prev batch fork) :
    c.attach prev batch = .ok { c with
      headers := c.headers.take (fork + 1), hashes := c.hashes.take (fork + 1) } := by
  rw [attach, if_neg h.below, h.found]
  simp only [h.claims, Bool.false_eq_true, if_false]
  rw [if_neg (Nat.not_lt.mpr h.shallow)]

/-- The reply does not make the client give up headers for less: if it is a
batch that replaces a part of the chain, then the headers the rules accept,
up to the first they refuse, make up for the ones that are cut. -/
def RoundOk (env : LightEnv) (p : ChainParams) (c : LightClient) (reply : Bytes) : Prop :=
  ∀ h hs fork, readBatch reply = .ok (h :: hs) → c.Replaces h.prev (h :: hs) fork →
    totalWork (c.headers.drop (fork + 1)) ≤
      totalWork (accepted env p c.tick (c.headers.take (fork + 1)) (h :: hs))

/-- The client after a round: unchanged, longer by what the rules accept, or cut
and then longer. -/
theorem syncRound_cases (env : LightEnv) (p : ChainParams) (addr : String) {c : LightClient}
    (reply : Bytes) (hc : c.Wf) :
    (c.syncRound env p addr reply).1.Wf ∧
      ((∃ batch, (c.syncRound env p addr reply).1.headers =
            c.headers ++ accepted env p c.tick c.headers batch ∧
          ∀ h hs fork, readBatch reply = .ok (h :: hs) → ¬ c.Replaces h.prev (h :: hs) fork) ∨
        ∃ h hs fork, readBatch reply = .ok (h :: hs) ∧ c.Replaces h.prev (h :: hs) fork ∧
          (c.syncRound env p addr reply).1.headers = c.headers.take (fork + 1) ++
            accepted env p c.tick (c.headers.take (fork + 1)) (h :: hs)) := by
  rw [syncRound]
  cases hb : readBatch reply with
  | error e => exact ⟨hc, .inl ⟨[], (List.append_nil _).symm, fun h hs fork he => by cases he⟩⟩
  | ok batch =>
  cases batch with
  | nil => exact ⟨hc, .inl ⟨[], (List.append_nil _).symm, fun h hs fork he => by cases he⟩⟩
  | cons h hs =>
  simp only []
  cases ha : c.attach h.prev (h :: hs) with
  | error e =>
      refine ⟨hc, .inl ⟨[], (List.append_nil _).symm, fun h' hs' fork he hr => ?_⟩⟩
      cases he
      rw [hr.attach_eq] at ha
      cases ha
  | ok c' =>
      simp only [endRound_fst]
      rcases attach_ok ha with ⟨hprev, rfl⟩ | ⟨fork, hr, rfl⟩
      · obtain ⟨hw, hheaders⟩ := appendBatch_spec env p addr (h :: hs) hc
        refine ⟨hw, .inl ⟨_, hheaders, fun h' hs' fork he hr => ?_⟩⟩
        cases he
        exact hr.below hprev
      · obtain ⟨hw, hheaders⟩ := appendBatch_spec env p addr (h :: hs) (hc.truncate fork)
        exact ⟨hw, .inr ⟨h, hs, fork, rfl, hr, hheaders⟩⟩

/-- A round leaves a chain that was accepted one that was accepted. -/
theorem syncRound_chain (env : LightEnv) {p : ChainParams} (addr : String) {c : LightClient}
    (reply : Bytes) (hc : c.Wf) (hchain : HeaderChain p c.headers) :
    HeaderChain p (c.syncRound env p addr reply).1.headers := by
  rcases (syncRound_cases env p addr reply hc).2 with
    ⟨batch, hheaders, -⟩ | ⟨h, hs, fork, -, -, hheaders⟩
  · rw [hheaders]
    exact headerChain_accepted env hchain batch c.tick
  · rw [hheaders]
    exact headerChain_accepted env (hchain.take fork) (h :: hs) c.tick

/-- A round does not lower the work of the chain, exactly if the condition is
met. -/
theorem syncRound_work (env : LightEnv) (p : ChainParams) (addr : String) {c : LightClient}
    (reply : Bytes) (hc : c.Wf) :
    totalWork c.headers ≤ totalWork (c.syncRound env p addr reply).1.headers ↔
      c.RoundOk env p reply := by
  rcases (syncRound_cases env p addr reply hc).2 with
    ⟨batch, hheaders, hnot⟩ | ⟨h, hs, fork, hb, hr, hheaders⟩
  · rw [hheaders, totalWork_append]
    exact ⟨fun _ h hs fork hb hr => absurd hr (hnot h hs fork hb), fun _ => by omega⟩
  · have hsplit : totalWork c.headers =
        totalWork (c.headers.take (fork + 1)) + totalWork (c.headers.drop (fork + 1)) := by
      rw [← totalWork_append, List.take_append_drop]
    rw [hheaders, totalWork_append, hsplit]
    constructor
    · intro hle h' hs' fork' hb' hr'
      rw [hb] at hb'
      cases hb'
      have hfork : fork = fork' := Option.some.inj (hr.found.symm.trans hr'.found)
      subst hfork
      omega
    · intro hok
      have := hok h hs fork hb hr
      omega

/-! ## A whole call -/

/-- Every round of a call meets the condition. -/
def RoundsOk (env : LightEnv) (p : ChainParams) (peer : LightPeer) :
    Nat → LightClient → Prop
  | 0, _ => True
  | k + 1, c =>
      ∀ reply, peer.exchange c.tick .getHeaders (c.headersRequest p) = some reply →
        c.RoundOk env p reply ∧
          ((c.syncRound env p peer.addr reply).2 = none →
            RoundsOk env p peer k (c.syncRound env p peer.addr reply).1)

theorem syncLoop_keeps (env : LightEnv) (p : ChainParams) (peer : LightPeer) (k : Nat)
    {c : LightClient} (hc : c.Wf) :
    (syncLoop env p peer k c).1.Wf ∧
      (HeaderChain p c.headers → HeaderChain p (syncLoop env p peer k c).1.headers) ∧
      (RoundsOk env p peer k c →
        totalWork c.headers ≤ totalWork (syncLoop env p peer k c).1.headers) := by
  induction k generalizing c with
  | zero => exact ⟨hc, fun hchain => hchain, fun _ => Nat.le_refl _⟩
  | succ k ih =>
      rw [syncLoop, RoundsOk]
      cases hx : peer.exchange c.tick .getHeaders (c.headersRequest p) with
      | none => exact ⟨hc, fun hchain => hchain, fun _ => Nat.le_refl _⟩
      | some reply =>
          have hw := (syncRound_cases env p peer.addr reply hc).1
          have hchain := syncRound_chain env (p := p) peer.addr reply hc
          have hwork := syncRound_work env p peer.addr reply hc
          simp only []
          cases hr : c.syncRound env p peer.addr reply with
          | mk c' e =>
          rw [hr] at hw hchain hwork
          cases e with
          | some e => exact ⟨hw, hchain, fun hok => hwork.mpr (hok reply rfl).1⟩
          | none =>
              obtain ⟨hw', hchain', hwork'⟩ := ih hw
              refine ⟨hw', fun h => hchain' (hchain h), fun hok => ?_⟩
              obtain ⟨hround, hrest⟩ := hok reply rfl
              rw [hr] at hrest
              exact (hwork.mpr hround).trans (hwork' (hrest rfl))

/-- A call leaves the headers and hashes its loop left. -/
theorem syncHeaders_eq (env : LightEnv) (p : ChainParams) {peers : List LightPeer}
    {peer : LightPeer} (hp : bestPeer peers = some peer) (c : LightClient) :
    (c.syncHeaders env p peers).1.headers = (syncLoop env p peer syncRounds c).1.headers ∧
      (c.syncHeaders env p peers).1.hashes = (syncLoop env p peer syncRounds c).1.hashes := by
  rw [syncHeaders, hp]
  simp only []
  split
  · next c' he =>
      rw [he]
      exact saveHeaders_eq env c'
  · next he => rw [he]; exact ⟨rfl, rfl⟩
  · next he => rw [he]; exact ⟨rfl, rfl⟩

/-- After any call of `sync_headers`, however it ends, the hashes are those of
the headers, and if every stored header had met the rules on top of the ones
before it then every header has. One round keeps the work of the chain exactly
if it meets the condition, and so the call does if all its rounds meet it. -/
theorem sync_headers_keeps (n : Network) (env : LightEnv) (peers : List LightPeer)
    {c : LightClient} (hc : c.Wf) :
    (c.syncHeaders env (paramsFor n) peers).1.Wf ∧
    (HeaderChain (paramsFor n) c.headers →
      HeaderChain (paramsFor n) (c.syncHeaders env (paramsFor n) peers).1.headers) ∧
    (∀ addr reply,
      totalWork c.headers ≤ totalWork (c.syncRound env (paramsFor n) addr reply).1.headers ↔
        c.RoundOk env (paramsFor n) reply) ∧
    ((∀ peer, bestPeer peers = some peer →
        RoundsOk env (paramsFor n) peer syncRounds c) →
      totalWork c.headers ≤
        totalWork (c.syncHeaders env (paramsFor n) peers).1.headers) := by
  cases hp : bestPeer peers with
  | none =>
      have hnone : c.syncHeaders env (paramsFor n) peers = (c, .failed "not connected") := by
        rw [syncHeaders, hp]
      rw [hnone]
      exact ⟨hc, fun h => h, fun addr reply => syncRound_work env _ addr reply hc,
        fun _ => Nat.le_refl _⟩
  | some peer =>
      obtain ⟨hheaders, hhashes⟩ := syncHeaders_eq env (paramsFor n) hp c
      obtain ⟨hw, hchain, hwork⟩ := syncLoop_keeps env (paramsFor n) peer syncRounds hc
      rw [hheaders]
      exact ⟨hw.of_eq hheaders hhashes, hchain,
        fun addr reply => syncRound_work env _ addr reply hc, fun hok => hwork (hok peer rfl)⟩

/-! ## A header that claims too much -/

/-- A client with one header above genesis. -/
def secondClient : LightClient := genesisClient.pushHeader (nextHeader 2)

theorem secondClient_wf : secondClient.Wf := rfl

theorem secondClient_chain (hpush : checkHeader (paramsFor .regtest) 1790121700
      genesisClient.headers (lastHash genesisClient.headers) (nextHeader 2) = .ok ()) :
    HeaderChain (paramsFor .regtest) secondClient.headers := .snoc .genesis hpush

/-- A header next to it, with a target of 1, which its hash does not meet. -/
def boastHeader : BlockHeader where
  prev := regtestGenesis.header.hash
  time := 1790121601
  bits := 0x03000001
  nonce := 2

def boast : Bytes := Writer.size 1 ++ boastHeader.write

/-- A peer that sends it, whatever it is asked. -/
def boaster : LightPeer := ⟨"198.51.100.7:9338", 2, fun _ _ _ => some boast⟩

end LightClient

end QuantCore

namespace QuantCore.LightClient

attribute [local instance] nonceCrypto

/-! ## Two headers for one -/

/-- Two headers next to the stored one, which meet the rules. -/
def rivals : List BlockHeader :=
  let h := { nextHeader 2 with nonce := 4 }
  [h, { nextHeader 2 with prev := h.hash, time := 1790121602, nonce := 5 }]

/-- A peer that sends them. -/
def rival : LightPeer := ⟨"198.51.100.8:9338", 2, fun _ _ _ => some (writeHeaders rivals)⟩

theorem roundsOk_rival : RoundsOk regtestLight (paramsFor .regtest) rival syncRounds
    secondClient := by
  have hwork : totalWork secondClient.headers ≤ totalWork (secondClient.syncRound regtestLight
      (paramsFor .regtest) rival.addr (writeHeaders rivals)).1.headers := by decide +kernel
  have hlast : (secondClient.syncRound regtestLight (paramsFor .regtest) rival.addr
      (writeHeaders rivals)).2.isSome = true := by decide +kernel
  rw [show syncRounds = 99999 + 1 from rfl, RoundsOk]
  intro reply hreply
  cases hreply
  refine ⟨(syncRound_work _ _ _ _ secondClient_wf).mp hwork, fun hnone => ?_⟩
  rw [hnone] at hlast
  cases hlast

/-- The call replaces the stored header by two. After the one that boasts a chain is
left as well, but its round does not meet the condition. -/
theorem sync_headers_keeps_rival :
    (RoundsOk regtestLight (paramsFor .regtest) rival syncRounds secondClient ∧
      (secondClient.syncHeaders regtestLight (paramsFor .regtest) [rival]).1.headers =
        regtestGenesis.header :: rivals ∧
      totalWork secondClient.headers ≤ totalWork
        (secondClient.syncHeaders regtestLight (paramsFor .regtest) [rival]).1.headers) ∧
    HeaderChain (paramsFor .regtest)
        (secondClient.syncHeaders regtestLight (paramsFor .regtest) [boaster]).1.headers ∧
      ¬ secondClient.RoundOk regtestLight (paramsFor .regtest) boast := by
  have hlost : ¬ totalWork secondClient.headers ≤ totalWork (secondClient.syncRound
      regtestLight (paramsFor .regtest) boaster.addr boast).1.headers := by decide +kernel
  have hstart := secondClient_chain (by decide +kernel)
  obtain ⟨-, -, -, hkept⟩ := sync_headers_keeps .regtest regtestLight [rival] secondClient_wf
  obtain ⟨-, hchain, hround, -⟩ :=
    sync_headers_keeps .regtest regtestLight [boaster] secondClient_wf
  refine ⟨⟨roundsOk_rival, by decide +kernel, hkept fun peer hpeer => ?_⟩, hchain hstart,
    fun hok => hlost ((hround boaster.addr boast).mpr hok)⟩
  cases hpeer
  exact roundsOk_rival

/-- The header is refused, and the one it replaced is gone. -/
theorem sync_headers_loses_work :
    secondClient.Wf ∧ HeaderChain (paramsFor .regtest) secondClient.headers ∧
      ¬ totalWork secondClient.headers ≤ totalWork (secondClient.syncHeaders regtestLight
        (paramsFor .regtest) [boaster]).1.headers :=
  ⟨secondClient_wf, secondClient_chain (by decide +kernel), by decide +kernel⟩

end QuantCore.LightClient
