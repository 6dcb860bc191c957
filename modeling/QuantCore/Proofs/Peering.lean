import QuantCore.Proofs.EngineRun
import QuantCore.Proofs.Mempool

/-!
# What an engine keeps to

Whoever connects to an engine and whatever they send, in any order and with the
calls of the node's other threads in between: who its peers are, what is said to
them, what is asked of them, and what becomes of the node beneath.
-/

namespace QuantCore

open Maps

namespace P2P

variable [Crypto] {net : P2PConfig} {s : P2P} {p : Peer}

/-- Different connections have different ids, go to different nodes and, where we
made them, to different addresses; a peer that has introduced itself is on our
network and is not ourselves. -/
theorem Reached.peers_apart (h : Reached net s) :
    (s.peers.Pairwise fun p q => p.id ≠ q.id ∧
      (p.gotVersion = true → q.gotVersion = true → p.ver.nonce ≠ q.ver.nonce) ∧
      (p.inbound = false → q.inbound = false → p.addr ≠ q.addr)) ∧
    (∀ p ∈ s.peers, p.gotVersion = true →
      p.ver.genesis = net.chain.params.genesisHash ∧ p.ver.nonce ≠ net.nonce) ∧
    (∀ p ∈ s.peers, p.gotVerack = true → p.gotVersion = true) ∧
    s.peers.countP (fun p => p.inbound) ≤ net.maxInbound := by
  have hk := h.good.keys
  refine ⟨?_, fun p hp => hk.ours p.key (List.mem_map_of_mem hp),
    fun p hp => hk.verack p.key (List.mem_map_of_mem hp), ?_⟩
  · have hap := hk.apart
    rw [P2P.keys, List.pairwise_map] at hap
    exact hap.imp fun ha => ⟨ha.id, ha.nonce, ha.addr⟩
  · have hin := hk.inbound
    rw [P2P.keys, List.countP_map] at hin
    exact hin

/-- What we say on a connection is our version, then `verack`, then messages that
are neither. As long as we have not hung up, the version is sent as soon as the
connection is made by us, or when the peer that made it has introduced itself,
and nothing but the version before that. -/
theorem Reached.conversation (h : Reached net s) (hp : p ∈ s.peers) :
    (p.out = [] ∨ ∃ (v : VersionMsg) (rest : List (Cmd × Bytes)), v.nonce = net.nonce ∧
      v.genesis = net.chain.params.genesisHash ∧ p.out = (Cmd.version, v.encode) :: rest ∧
      (rest = [] ∨ ∃ more, rest = (Cmd.verack, []) :: more ∧
        ∀ m ∈ more, m.1 ≠ Cmd.version ∧ m.1 ≠ Cmd.verack)) ∧
    (p.disconnect = false →
      (p.gotVersion = false → p.out.length = if p.connecting ∨ p.inbound then 0 else 1) ∧
      (p.gotVersion = true → 2 ≤ p.out.length)) := by
  obtain ⟨n, hn, hstage⟩ := h.good.greeted p hp
  have hunmet : p.gotVersion = false → p.key.stage = if p.connecting ∨ p.inbound then 0 else 1 := by
    intro hv
    have hv' : p.key.gotVersion = false := hv
    simp only [PeerKey.stage, hv', Bool.false_eq_true, if_false, Bool.or_eq_true]
    rfl
  rcases n with _ | _ | n
  · replace hn : p.out = [] := hn
    refine ⟨Or.inl hn, fun hd => ⟨fun hv => ?_, fun hv => ?_⟩⟩
    · rw [hn, ← hunmet hv, ← hstage hd]
      rfl
    · exact absurd ((hstage hd).trans (PeerKey.stage_met hv)) (by decide)
  · obtain ⟨m, hout, v, rfl, hnonce, hgenesis⟩ := hn
    refine ⟨Or.inr ⟨v, [], hnonce, hgenesis, hout, Or.inl rfl⟩, fun hd => ⟨fun hv => ?_, fun hv => ?_⟩⟩
    · rw [hout, ← hunmet hv, ← hstage hd]
      rfl
    · exact absurd ((hstage hd).trans (PeerKey.stage_met hv)) (by decide)
  · obtain ⟨m, more, hout, ⟨v, rfl, hnonce, hgenesis⟩, hmore⟩ := hn
    refine ⟨Or.inr ⟨v, (Cmd.verack, []) :: more, hnonce, hgenesis, hout, Or.inr ⟨more, rfl, hmore⟩⟩,
      fun hd => ⟨fun hv => ?_, fun _ => ?_⟩⟩
    · have hs := hstage hd
      rw [hunmet hv] at hs
      split at hs <;> omega
    · rw [hout, List.length_cons, List.length_cons]
      omega

/-- Each block in flight is with one peer, which is connected, has shaken hands,
has the whole chain and has not refused the block; and no peer is asked for more
than it should be at a time. -/
theorem Reached.in_flight (h : Reached net s) :
    (∀ b id t, s.inflight.lookup b = some (id, t) → (b, id) ∉ s.noWitness ∧
      ∃ p ∈ s.peers, p.id = id ∧ p.gotVersion = true ∧ p.gotVerack = true ∧ p.full = true ∧
        ∀ q ∈ s.peers, q.id = id → q = p) ∧
    ∀ id, loadOf s.inflight id ≤ maxInflightPerPeer := by
  refine ⟨fun b id t hl => ?_, h.good.downloads.load⟩
  obtain ⟨⟨k, hk, hid, hv, ha, hs⟩, hw⟩ := h.good.downloads.asked b id t hl
  obtain ⟨p, hp, rfl⟩ := List.mem_map.mp hk
  refine ⟨hw, p, hp, hid, hv, ha, ?_, fun q hq hq' => ?_⟩
  · exact bne_iff_ne.mpr hs
  · exact h.good.peer_unique hp hq (hq'.trans hid.symm)

/-- When no snapshot is being loaded, `request_blocks` is the search for blocks. -/
theorem requestBlocks_idle {now : Int}
    (hidle : net.fastSync = true →
      (s.snap.tryFastSync net.chain s.node.cs s.syncPeers now).2.1 = false) :
    ∃ f, s.requestBlocks net now = ({ s with snap := f } : P2P).requestMissing net now := by
  rw [requestBlocks]
  split
  · next hfast =>
      have hreq := tryFastSync_request net.chain s.node.cs s.syncPeers now s.snap
      have hbusy := hidle hfast
      generalize s.snap.tryFastSync net.chain s.node.cs s.syncPeers now = r at hreq hbusy ⊢
      obtain ⟨f, busy, req⟩ := r
      replace hbusy : busy = false := hbusy
      refine ⟨f, ?_⟩
      rw [hbusy]
      cases req with
      | none => rfl
      | some e => exact absurd (hreq e.1 e.2 rfl).1 (by rw [hbusy]; exact Bool.false_ne_true)
  · exact ⟨s.snap, rfl⟩

/-- What `request_blocks` leaves behind when no snapshot is being loaded and a
header has more work than the tip. Each block that is missing above the fork, up to
the end of the window, is in flight, or everybody who could serve it has refused
it or has enough to do; and each peer has been sent one message, for just the
blocks that are now in flight with it and were not before, or none. -/
theorem Reached.requests (h : Reached net s) {now : Int} {best fork : Hash256}
    (hidle : net.fastSync = true →
      (s.snap.tryFastSync net.chain s.node.cs s.syncPeers now).2.1 = false)
    (hbest : s.node.cs.bestHeader = some best)
    (hwork : (s.node.cs.work best).le (s.node.cs.work s.node.cs.tip) = false)
    (hfork : s.node.cs.forkPoint best = some fork) :
    (∀ h b, (s.node.cs.entry fork).height < h →
      h ≤ min (s.node.cs.entry best).height ((s.node.cs.entry fork).height + downloadWindow) →
      s.node.cs.ancestor best h = some b → (s.node.cs.entry b).haveData = false →
      b ∈ (s.requestBlocks net now).inflight ∨
        ∀ q ∈ s.peers, q.active = true → q.full = true → (h : Int) ≤ q.bestHeight →
          maxInflightPerPeer ≤ loadOf (s.requestBlocks net now).inflight q.id ∨
            (b, q.id) ∈ s.noWitness) ∧
    List.Forall₂ (fun p q => ∃ hs : List Hash256, hs.Nodup ∧
      (∀ b, b ∈ hs ↔ b ∉ s.inflight ∧
        (s.requestBlocks net now).inflight.lookup b = some (p.id, now)) ∧
      q.out = p.out ++ if hs = [] then []
        else [(Cmd.getData, writeInv (hs.map fun h => ⟨invBlock, h⟩))])
      s.peers (s.requestBlocks net now).peers := by
  obtain ⟨f, hf⟩ := requestBlocks_idle hidle
  have hd : ({ s with snap := f } : P2P).Distinct := h.good.distinct
  obtain ⟨hmissing, hsent⟩ := requestMissing_spec now net hd hbest hwork hfork
  rw [hf]
  refine ⟨fun h b hlo hhi ha hn => (hmissing h b hlo hhi ha hn).imp_right fun he => ?_, hsent⟩
  intro q hq hactive hfull hh
  refine he q hq ?_
  rw [canServe, hactive, hfull, decide_eq_false (Int.not_lt.mpr hh)]
  rfl

end P2P

end QuantCore

namespace QuantCore.P2P

open Maps

attribute [local instance] stampCrypto

/-! ## An engine that has met a peer -/

/-- Nothing breaks and the clocks stand still. -/
def calmEnv : NetEnv where
  breaks _ := false
  socket _ := true
  millis _ := 0
  seconds _ := 1792900000
  random _ := 0
  mapped _ := false
  shuffle _ l := l
  shuffle_perm _ l := List.Perm.refl l
  ipv6 := false

def testNet : P2PConfig where
  chain := FullNode.testConfig
  enum _ := []
  port := 1
  agent := []
  fastSync := false
  nonce := 1
  env := calmEnv

def somebody : NetAddr := ⟨⟨#[0, 0, 0, 0, 0, 0, 0, 0, 0, 0, 255, 255, 8, 8, 8, 8], rfl⟩, 7⟩

def neighbour : NetAddr := ⟨⟨#[0, 0, 0, 0, 0, 0, 0, 0, 0, 0, 255, 255, 8, 8, 4, 4], rfl⟩, 7⟩

/-- How the peer introduces itself. -/
def theirVersion : VersionMsg where
  services := serviceFull
  nonce := 2
  height := 9
  genesis := testNet.chain.params.genesisHash

def framesOf (ms : List (Cmd × Bytes)) : Bytes :=
  ms.flatMap fun m => frameMessage testNet.chain.params m.1 m.2

/-- The header of a block on top of the tip. -/
def headerAbove (n : FullNode) : BlockHeader where
  prev := n.cs.tip
  time := (n.cs.entry n.cs.tip).header.time + 120
  bits := n.cs.nextBitsFor testNet.chain.params n.cs.tip

/-- A peer connects and shakes hands, and we connect to another, which shakes hands
too; then a header comes from elsewhere. -/
def meeting (n : FullNode) : List NetEvent :=
  [.accept somebody,
    .recv 1 [framesOf [(Cmd.version, theirVersion.encode), (Cmd.verack, [])]] false,
    .addNode neighbour, .queues, .connected 2 false,
    .recv 2 [framesOf [(Cmd.version, { theirVersion with nonce := 3 }.encode),
      (Cmd.verack, [])]] false,
    .command (.header (headerAbove n))]

def play (s : P2P) (es : List NetEvent) : P2P := es.foldl (step testNet) s

def eventsFit (s : P2P) : List NetEvent → Bool
  | [] => true
  | e :: es => (step testNet s e).nextPeerId ≤ 2 ^ 64 && eventsFit (step testNet s e) es

theorem Reached.play {s : P2P} (h : Reached testNet s) {es : List NetEvent}
    (hfit : s.eventsFit es = true) : Reached testNet (s.play es) := by
  induction es generalizing s with
  | nil => exact h
  | cons e es ih =>
      rw [eventsFit, Bool.and_eq_true, decide_eq_true_iff] at hfit
      exact ih (.step h e hfit.1) hfit.2

/-- A header with more work than the tip, and the fork between them. -/
def ahead (s : P2P) : Option (Hash256 × Hash256) :=
  s.node.cs.bestHeader.bind fun best =>
    if (s.node.cs.work best).le (s.node.cs.work s.node.cs.tip) then none
    else (s.node.cs.forkPoint best).map fun fork => (best, fork)

theorem ahead_some {s : P2P} {best fork : Hash256} (h : s.ahead = some (best, fork)) :
    s.node.cs.bestHeader = some best ∧
      (s.node.cs.work best).le (s.node.cs.work s.node.cs.tip) = false ∧
      s.node.cs.forkPoint best = some fork := by
  rw [ahead, Option.bind_eq_some_iff] at h
  obtain ⟨b, hb, h⟩ := h
  split at h
  · cases h
  next hw =>
  rw [Option.map_eq_some_iff] at h
  obtain ⟨f, hf, he⟩ := h
  cases he
  exact ⟨hb, Bool.eq_false_iff.mpr hw, hf⟩

/-- What is looked for in the engine after a meeting and after one more round of
its own work. -/
def metAs (s t : P2P) : Bool :=
  (s.peers.any fun p => p.inbound && p.gotVersion && !p.disconnect) &&
    (s.peers.any fun p => !p.inbound && p.gotVersion && !p.disconnect) && s.ahead.isSome &&
    (pairs t.inflight).any fun _ => true

/-- A node of which the engine makes one that is looked for. -/
def metNode : { r : Except String FullNode // r = FullNode.start testNet.chain {} 0 ∧
    (r.toOption.any fun n => eventsFit { node := n } (meeting n ++ [.maintain]) &&
      metAs (play { node := n } (meeting n))
        (play { node := n } (meeting n ++ [.maintain]))) = true } :=
  ⟨FullNode.quickStart testNet.chain, (FullNode.start_quick _).symm, by decide +kernel⟩

theorem eventsFit_append {s : P2P} {es es' : List NetEvent}
    (h : s.eventsFit (es ++ es') = true) : s.eventsFit es = true := by
  induction es generalizing s with
  | nil => rfl
  | cons e es ih =>
      rw [List.cons_append, eventsFit, Bool.and_eq_true] at h
      rw [eventsFit, Bool.and_eq_true]
      exact ⟨h.1, ih h.2⟩

theorem met : ∃ s t, Reached testNet s ∧ Reached testNet t ∧ metAs s t = true := by
  obtain ⟨r, hr, hrun⟩ := metNode
  cases r with
  | error e => cases hrun
  | ok n =>
      rw [Except.toOption, Option.any_some, Bool.and_eq_true] at hrun
      obtain ⟨hfit, hmet⟩ := hrun
      have hstart : Reached testNet { node := n } := .start (.start hr.symm) ∅ ∅
      refine ⟨_, _, hstart.play (eventsFit_append hfit), ?_, hmet⟩
      refine hstart.play ?_
      exact hfit

theorem metAs_inbound {s t : P2P} (h : metAs s t = true) :
    ∃ p ∈ s.peers, p.inbound = true ∧ p.gotVersion = true ∧ p.disconnect = false := by
  simp only [metAs, Bool.and_eq_true, List.any_eq_true, Bool.not_eq_true'] at h
  obtain ⟨⟨⟨⟨p, hp, ⟨hin, hv⟩, hd⟩, -⟩, -⟩, -⟩ := h
  exact ⟨p, hp, hin, hv, hd⟩

theorem metAs_outbound {s t : P2P} (h : metAs s t = true) :
    ∃ p ∈ s.peers, p.inbound = false ∧ p.gotVersion = true ∧ p.disconnect = false := by
  simp only [metAs, Bool.and_eq_true, List.any_eq_true, Bool.not_eq_true'] at h
  obtain ⟨⟨⟨-, p, hp, ⟨hout, hv⟩, hd⟩, -⟩, -⟩ := h
  exact ⟨p, hp, hout, hv, hd⟩

theorem metAs_ahead {s t : P2P} (h : metAs s t = true) : ∃ best fork, s.ahead = some (best, fork) := by
  rw [metAs, Bool.and_eq_true, Bool.and_eq_true, Option.isSome_iff_exists] at h
  obtain ⟨⟨-, x, hx⟩, -⟩ := h
  exact ⟨x.1, x.2, hx⟩

theorem metAs_asked {s t : P2P} (h : metAs s t = true) :
    ∃ b id time, t.inflight.lookup b = some (id, time) := by
  rw [metAs, Bool.and_eq_true, List.any_eq_true] at h
  obtain ⟨-, ⟨b, id, time⟩, hb, -⟩ := h
  exact ⟨b, id, time, mem_pairs.mp hb⟩

/-- A peer that connected to us and one we connected to are different nodes. -/
theorem peers_apart_met : ∃ s, Reached testNet s ∧
    (∃ p ∈ s.peers, ∃ q ∈ s.peers, p.inbound = true ∧ q.inbound = false ∧
      p.gotVersion = true ∧ q.gotVersion = true ∧ p.ver.nonce ≠ q.ver.nonce) ∧
    (∀ p ∈ s.peers, p.gotVersion = true →
      p.ver.genesis = testNet.chain.params.genesisHash ∧ p.ver.nonce ≠ 1) ∧
    s.peers.countP (fun p => p.inbound) ≤ 48 := by
  obtain ⟨s, t, hs, -, hmet⟩ := met
  obtain ⟨p, hp, hin, hpv, -⟩ := metAs_inbound hmet
  obtain ⟨q, hq, hout, hqv, -⟩ := metAs_outbound hmet
  obtain ⟨hapart, hours, -, hinbound⟩ := hs.peers_apart
  have hne : p ≠ q := by
    rintro rfl
    rw [hin] at hout
    cases hout
  have hsymm : Std.Symm fun a b : Peer =>
      a.gotVersion = true → b.gotVersion = true → a.ver.nonce ≠ b.ver.nonce :=
    ⟨fun a b h hb ha => (h ha hb).symm⟩
  have hnonces := hapart.imp (S := fun a b =>
    a.gotVersion = true → b.gotVersion = true → a.ver.nonce ≠ b.ver.nonce) fun h => h.2.1
  have hnonce := hnonces.forall hp hq hne
  exact ⟨s, hs, ⟨p, hp, q, hq, hin, hout, hpv, hqv, hnonce hpv hqv⟩, hours, hinbound⟩

theorem conversation_met : ∃ s p, Reached testNet s ∧ p ∈ s.peers ∧ 2 ≤ p.out.length := by
  obtain ⟨s, t, hs, -, hmet⟩ := met
  obtain ⟨p, hp, -, hv, hd⟩ := metAs_outbound hmet
  exact ⟨s, p, hs, hp, ((hs.conversation hp).2 hd).2 hv⟩

theorem in_flight_met : ∃ s b id t, Reached testNet s ∧ s.inflight.lookup b = some (id, t) ∧
    ∃ p ∈ s.peers, p.id = id ∧ p.gotVerack = true ∧ p.full = true := by
  obtain ⟨u, s, -, hs, hmet⟩ := met
  obtain ⟨b, id, t, hl⟩ := metAs_asked hmet
  obtain ⟨-, p, hp, hid, -, ha, hfull, -⟩ := hs.in_flight.1 b id t hl
  exact ⟨s, b, id, t, hs, hl, p, hp, hid, ha, hfull⟩

theorem requests_met : ∃ s best fork, Reached testNet s ∧ s.ahead = some (best, fork) ∧
    List.Forall₂ (fun p q => ∃ hs : List Hash256, hs.Nodup ∧
      (∀ b, b ∈ hs ↔ b ∉ s.inflight ∧
        (s.requestBlocks testNet 0).inflight.lookup b = some (p.id, 0)) ∧
      q.out = p.out ++ if hs = [] then []
        else [(Cmd.getData, writeInv (hs.map fun h => ⟨invBlock, h⟩))])
      s.peers (s.requestBlocks testNet 0).peers := by
  obtain ⟨s, t, hs, -, hmet⟩ := met
  obtain ⟨best, fork, ha⟩ := metAs_ahead hmet
  obtain ⟨hbest, hwork, hfork⟩ := ahead_some ha
  exact ⟨s, best, fork, hs, ha,
    (hs.requests (fun hf => absurd hf Bool.false_ne_true) hbest hwork hfork).2⟩

end QuantCore.P2P
