import QuantCore.Proofs.Handshakes

/-!
# Runs of the engine

Every event keeps the invariant, so it holds in all states an engine gets into,
in whatever order messages, connections, timers and the calls of other threads
come.
-/

namespace QuantCore

open Codec Maps

namespace P2P

variable [Crypto] {net : P2PConfig} {s t : P2P} {p : Peer}

/-! ## Connections that are there -/

omit [Crypto] in
/-- The connections of an id are no longer being made. -/
def Calm (s : P2P) (id : UInt64) : Prop := ∀ p ∈ s.peers, p.id = id → p.connecting = false

theorem Quiet.calm {id : UInt64} (h : Quiet net s t) (hc : s.Calm id) : t.Calm id := by
  intro q hq hid
  obtain ⟨p, hp, hk⟩ := exists_of_forall₂ h.peers hq
  exact (congrArg PeerKey.connecting hk.key).trans (hc p hp (hk.id_eq.symm.trans hid))

omit [Crypto] in
theorem Calm.same {id : UInt64} (hc : s.Calm id) (h : Same s t) : t.Calm id := by
  rw [Calm, h.peers]
  exact hc

omit [Crypto] in
theorem Calm.modify {id : UInt64} (hc : s.Calm id) (id' : UInt64) {f : Peer → Peer}
    (hid : ∀ p, (f p).id = p.id) (hf : ∀ p, p.connecting = false → (f p).connecting = false) :
    (s.modifyPeer id' f).Calm id := by
  intro q hq hq'
  obtain ⟨p, hp, rfl⟩ := List.mem_map.mp hq
  by_cases he : p.id = id'
  · rw [if_pos he] at hq' ⊢
    exact hf p (hc p hp ((hid p).symm.trans hq'))
  · rw [if_neg he] at hq' ⊢
    exact hc p hp hq'

omit [Crypto] in
theorem Calm.send {id : UInt64} (hc : s.Calm id) (id' : UInt64) (c : Cmd) (payload : Bytes) :
    (s.send net id' c payload).Calm id :=
  Calm.modify (s := s.asked) hc id' (fun p => congrArg PeerKey.id (put_key p ..))
    fun p h => (congrArg PeerKey.connecting (put_key p ..)).trans h

theorem welcome_calm {id : UInt64} (hc : s.Calm id) (p : Peer) (v : VersionMsg) :
    (s.welcome net p v).Calm id := by
  have hi : (s.modifyPeer p.id fun q => q.introduce v).Calm id :=
    hc.modify p.id (fun _ => rfl) fun _ h => h
  rw [welcome]
  refine Calm.send (Calm.same ?_ (learnedExternal_same _ _)) _ _ _
  split
  · have ha : ∀ t : P2P, t.Calm id → (t.onConnected net p).Calm id := fun t ht =>
      (ht.modify p.id (f := fun q => q.ready (t.millis net)) (fun _ => rfl) fun _ _ => rfl).send
        _ _ _
    refine ha _ ?_
    split
    · exact hi.same (addAddr_same _ _ _)
    · exact hi
  · exact hi

theorem handleVersion_calm {id : UInt64} (hc : s.Calm id) (p : Peer) (payload : Bytes) :
    (s.handleVersion net p payload).1.Calm id := by
  rw [handleVersion]
  split
  · exact (Quiet.misbehave s p false : Quiet net s _).calm hc
  split
  · exact hc
  next v rest _ =>
  have hv : (s.modifyPeer p.id fun q => { q with ver := v }).Calm id :=
    hc.modify p.id (fun _ => rfl) fun _ h => h
  generalize (s.modifyPeer p.id fun q => { q with ver := v }) = t at hv ⊢
  simp only
  split
  · exact (Quiet.misbehave t p false : Quiet net t _).calm hv
  split
  · refine Calm.modify (Calm.same hv ?_) p.id (fun _ => rfl) fun _ h => h
    split <;> exact ⟨rfl, rfl, rfl, rfl, rfl⟩
  split
  · exact hv.modify p.id (fun _ => rfl) fun _ h => h
  · exact welcome_calm hv p v

theorem handle_calm {id : UInt64} (h : s.Good net) (hp : p ∈ s.peers) (hc : s.Calm id) (c : Cmd)
    (payload : Bytes) : (s.handle net p c payload).1.Calm id := by
  by_cases hver : c = Cmd.version
  · subst hver
    rw [handle, if_neg fun hn => hn.2 rfl, if_pos rfl]
    exact handleVersion_calm hc p payload
  by_cases hack : c = Cmd.verack
  · subst hack
    rw [handle]
    by_cases hv : p.gotVersion = true
    · rw [if_neg fun hn => by simp [hv] at hn, if_neg hver, if_pos rfl]
      have hm := h.met hp hv
      have hc' : (s.modifyPeer p.id fun q => { q with gotVerack := true }).Calm id :=
        hc.modify p.id (fun _ => rfl) fun _ h => h
      have hm' : (s.modifyPeer p.id fun q => { q with gotVerack := true }).Met p.id := by
        intro k hk hid
        obtain ⟨q, hq, rfl⟩ := List.mem_map.mp hk
        obtain ⟨o, ho, rfl⟩ := List.mem_map.mp hq
        by_cases he : o.id = p.id
        · rw [if_pos he] at hid ⊢
          exact hm o.key (List.mem_map_of_mem ho) hid
        · rw [if_neg he] at hid ⊢
          exact hm o.key (List.mem_map_of_mem ho) hid
      have hq : Quiet net _ _ := .same (noteGood_same net
        (s.modifyPeer p.id fun q => { q with gotVerack := true }) p)
      have hask := hq.trans (askPeer_quiet (hq.met hm'))
      exact (hask.trans (tellAddrs_quiet (hask.met hm'))).calm hc'
    · rw [if_pos ⟨by simp [hv], hver⟩]
      exact (Quiet.misbehave s p false : Quiet net s _).calm hc
  · exact (handle_quiet h.distinct (List.mem_map_of_mem hp) ⟨hver, hack⟩ payload).calm hc

/-! ## Reading -/

theorem readFrames_good (id : UInt64) (k : Nat) (h : s.Good net) (hc : s.Calm id) :
    (s.readFrames net id k).Good net := by
  induction k generalizing s with
  | zero => exact h
  | succ k ih =>
      rw [readFrames]
      split
      · exact h
      next p hp =>
      obtain ⟨hmem, hid⟩ := peer_some hp
      split
      · exact h
      · exact h.quiet (.misbehave s p false)
      next c payload rest _ =>
      have hq : Quiet net s (s.modifyPeer id fun q => { q with rx := rest }) :=
        .modify fun _ _ _ => Peer.Kept.quiet rfl (fun hd => hd) rfl
      have hg := h.quiet hq
      have hc' := hq.calm hc
      have hmem' : { p with rx := rest } ∈
          (s.modifyPeer id fun q => { q with rx := rest }).peers :=
        List.mem_map.mpr ⟨p, hmem, if_pos hid⟩
      generalize (s.modifyPeer id fun q => { q with rx := rest }) = t at hg hc' hmem' ⊢
      have hgood := handle_good hg hmem' (hc p hmem hid) c payload
      have hcalm := handle_calm hg hmem' hc' c payload
      have hsame : t.handle net { p with rx := rest } c payload = t.handle net p c payload := rfl
      rw [hsame] at hgood hcalm
      have hboth : (catchError net p (t.handle net p c payload)).Good net ∧
          (catchError net p (t.handle net p c payload)).Calm id := by
        rw [catchError.eq_def]
        split
        · next he =>
            rw [he] at hgood hcalm
            exact ⟨hgood, hcalm⟩
        · next u e he =>
            rw [he] at hgood hcalm
            exact ⟨hgood.quiet (.misbehave u p true),
              (Quiet.misbehave u p true : Quiet net u _).calm hcalm⟩
      simp only
      split
      · exact hboth.1
      · exact ih hboth.1 hboth.2

theorem feed_quiet (net : P2PConfig) (id : UInt64) (chunks : List Bytes) (s : P2P) :
    Quiet net s (s.feed net id chunks).1 := by
  induction chunks generalizing s with
  | nil => exact .refl s
  | cons bs rest ih =>
      have hq : Quiet net s (s.modifyPeer id fun p =>
          { p with rx := p.rx ++ bs, lastRecvMs := s.millis net }) :=
        .modify fun _ _ _ => Peer.Kept.quiet rfl (fun hd => hd) rfl
      rw [feed]
      split
      · exact hq
      · split
        · next p _ _ => exact hq.trans (.misbehave _ p false)
        · exact hq.trans (ih _)

theorem readPeer_good {id : UInt64} (h : s.Good net) (hc : s.Calm id) (chunks : List Bytes)
    (closed : Bool) : (s.readPeer net id chunks closed).Good net := by
  have hf := feed_quiet net id chunks s
  rw [readPeer]
  split
  · next t he =>
      rw [he] at hf
      exact h.quiet hf
  next t he =>
  rw [he] at hf
  have hg := h.quiet hf
  have hq : Quiet net t (if closed then t.hangUp id else t) := by
    split
    · exact .hangUp t id
    · exact .refl t
  simp only
  split
  · exact hg.quiet hq
  · exact readFrames_good id _ (hg.quiet hq) (hq.calm (hf.calm hc))

/-! ## New connections -/

/-- A connection nothing has been said on yet. -/
structure Blank (net : P2PConfig) (s : P2P) (p : Peer) : Prop where
  gotVersion : p.gotVersion = false
  gotVerack : p.gotVerack = false
  out : p.out = []
  connecting : p.connecting = !p.inbound
  inbound : p.inbound = true → s.peers.countP (fun q => q.inbound) < net.maxInbound
  outbound : p.inbound = false → ∀ q ∈ s.peers, q.inbound = false → q.addr ≠ p.addr

theorem addPeer_good (h : s.Good net) (hfit : s.nextPeerId < 2 ^ 64) (hp : Blank net s p) :
    (s.addPeer p).Good net := by
  have hkeys : (s.addPeer p).keys =
      s.keys ++ [({ p with id := UInt64.ofNat s.nextPeerId } : Peer).key] := by
    rw [P2P.keys, P2P.keys, addPeer, List.map_append]
    rfl
  have hlast : ∀ {P : PeerKey → Prop}, (∀ k ∈ s.keys, P k) →
      P ({ p with id := UInt64.ofNat s.nextPeerId } : Peer).key →
      ∀ k ∈ (s.addPeer p).keys, P k := by
    intro P hall hp k hk
    rw [hkeys] at hk
    rcases List.mem_append.mp hk with hk | hk
    · exact hall k hk
    · rw [List.mem_singleton] at hk
      exact hk ▸ hp
  refine ⟨⟨hlast (fun k hk => ?_) ⟨s.nextPeerId, Nat.lt_succ_self _, rfl⟩,
    hlast h.keys.connecting fun hc => ⟨hp.gotVersion, ?_⟩,
    hlast h.keys.ours fun hv => absurd (hp.gotVersion.symm.trans hv) Bool.noConfusion,
    hlast h.keys.verack fun ha => absurd (hp.gotVerack.symm.trans ha) Bool.noConfusion, ?_, ?_⟩,
    fun q hq => ?_, ⟨fun b id t hl => ?_, h.downloads.load⟩, h.running⟩
  · obtain ⟨n, hn, hid⟩ := h.keys.numbered k hk
    exact ⟨n, Nat.lt_succ_of_lt hn, hid⟩
  · have hc' : (!p.inbound) = true := hp.connecting.symm.trans hc
    have hi : p.inbound = false := by simpa using hc'
    exact hi
  · rw [hkeys, List.pairwise_append]
    refine ⟨h.keys.apart, List.pairwise_singleton _ _, fun k hk k' hk' => ?_⟩
    rw [List.mem_singleton] at hk'
    subst hk'
    refine ⟨fun hid => ?_, fun _ hv => absurd (hp.gotVersion.symm.trans hv) Bool.noConfusion,
      fun hi hi' => ?_⟩
    · -- an id is not used twice as long as they are counted in 64 bits
      obtain ⟨n, hn, hid'⟩ := h.keys.numbered k hk
      have heq : UInt64.ofNat n = UInt64.ofNat s.nextPeerId := hid'.symm.trans hid
      have hval := congrArg UInt64.toNat heq
      rw [UInt64.toNat_ofNat', UInt64.toNat_ofNat', Nat.mod_eq_of_lt (hn.trans hfit),
        Nat.mod_eq_of_lt hfit] at hval
      exact absurd hval hn.ne
    · obtain ⟨q, hq, rfl⟩ := List.mem_map.mp hk
      exact hp.outbound hi' q hq hi
  · rw [hkeys, List.countP_append, List.countP_singleton]
    have hcount : s.keys.countP PeerKey.inbound = s.peers.countP fun q => q.inbound := by
      rw [P2P.keys, List.countP_map]
      rfl
    split
    · next hi =>
        rw [hcount]
        exact hp.inbound hi
    · exact h.keys.inbound
  · rcases List.mem_append.mp hq with hq | hq
    · exact h.greeted q hq
    · rw [List.mem_singleton] at hq
      subst hq
      refine ⟨0, hp.out, fun _ => ?_⟩
      have hstage : (p.connecting || p.inbound) = true := by
        rw [hp.connecting]
        exact Bool.not_or_self _
      simp [PeerKey.stage, Peer.key, hp.gotVersion, hstage]
  · obtain ⟨⟨k, hk, hrest⟩, hw⟩ := h.downloads.asked b id t hl
    refine ⟨⟨k, ?_, hrest⟩, hw⟩
    rw [hkeys]
    exact List.mem_append_left _ hk

theorem acceptInbound_sound (h : s.Sound net) (a : NetAddr) :
    (s.acceptInbound net a).Sound net := by
  rw [acceptInbound]
  split
  · exact h
  next hn =>
  rw [not_or] at hn
  intro hfit
  exact addPeer_good (h (Nat.le_of_succ_le hfit)) (Nat.lt_of_succ_le hfit)
    ⟨rfl, rfl, rfl, rfl, fun _ => Nat.lt_of_not_le hn.1, fun hi => absurd hi Bool.noConfusion⟩

theorem Sound.same (h : s.Sound net) (hs : Same s t) : t.Sound net := fun hfit =>
  (h (hs.nextPeerId ▸ hfit)).quiet (.same hs)

theorem connectTo_sound (h : s.Sound net) (a : NetAddr) (manual : Bool) :
    (s.connectTo net a manual).Sound net := by
  rw [connectTo]
  split
  · exact h
  next hany =>
  split
  · exact h
  split
  · exact h
  have hs : Same s (s.noteAttempt net a manual).asked := ⟨rfl, rfl, rfl, rfl, rfl⟩
  simp only
  split
  · intro hfit
    refine addPeer_good (h.same hs (Nat.le_of_succ_le hfit)) (Nat.lt_of_succ_le hfit)
      ⟨rfl, rfl, rfl, rfl, fun hi => absurd hi Bool.noConfusion, fun _ q hq hi he => hany ?_⟩
    rw [List.any_eq_true]
    refine ⟨q, hq, ?_⟩
    simp [he, hi]
  · exact h.same hs

/-! ## Queues -/

/-- A loop each of whose rounds keeps the invariant. -/
theorem Sound.foldl {α : Type} {f : P2P → α → P2P} (hf : ∀ t a, t.Sound net → (f t a).Sound net)
    (h : s.Sound net) (l : List α) : (l.foldl f s).Sound net :=
  List.foldlRecOn l f h fun t ht a _ => hf t a ht

/-- A step that is quiet where the invariant holds. -/
theorem Sound.quiet (h : s.Sound net) (hn : t.nextPeerId = s.nextPeerId)
    (hq : s.Distinct → Quiet net s t) : t.Sound net := fun hfit => by
  have hg := h (hn ▸ hfit)
  exact hg.quiet (hq hg.distinct)

theorem addNode_sound (h : s.Sound net) (a : NetAddr) : (s.addNode net a).Sound net :=
  connectTo_sound (h.same (addAddr_same s a true)) a true

theorem applyBan_quiet (s : P2P) (b : BanOp) : Quiet net s (s.applyBan b) := by
  rw [applyBan]
  split
  · exact .same ⟨rfl, rfl, rfl, rfl, rfl⟩
  have hp : List.Forall₂ Peer.Kept s.peers (s.peers.map fun p =>
      if p.addr.ip = b.ip then { p with disconnect := true } else p) := by
    refine List.forall₂_map_right_iff.mpr (List.forall₂_same.mpr fun p _ => ?_)
    split
    · exact Peer.Kept.quiet rfl (fun _ => rfl) rfl
    · exact Peer.Kept.refl p
  refine ⟨hp, rfl, fun h => ⟨?_, h.load⟩, fun h => h⟩
  show ∀ b id t, _ → (∃ k ∈ List.map Peer.key _, _) ∧ _
  rw [Peer.Kept.keys hp]
  exact h.asked

theorem relayTo_quiet (hd : s.Distinct) (relay : List Hash256) (id : UInt64) :
    Quiet net s (s.relayTo net relay id) := by
  rw [relayTo]
  split
  · exact .refl s
  next p hp =>
  obtain ⟨hmem, hid⟩ := peer_some hp
  split
  · exact .refl s
  next ha =>
  have hm : s.Met id := hid ▸ hd.met hmem (by simpa using ha)
  split
  next k news _ =>
  have hk : Quiet net s (s.modifyPeer id fun p => { p with known := k }) :=
    .modify fun _ _ _ => Peer.Kept.quiet rfl (fun hd => hd) rfl
  simp only
  split
  · exact hk
  · exact hk.trans (.send (hk.met hm) (by decide) _)

theorem announceTo_quiet (hd : s.Distinct) (hdr : BlockHeader) (id : UInt64) :
    Quiet net s (s.announceTo net hdr id) := by
  rw [announceTo]
  split
  · exact .refl s
  next p hp =>
  obtain ⟨hmem, hid⟩ := peer_some hp
  split
  · exact .refl s
  next ha =>
  rw [not_or] at ha
  have hm : s.Met id := hid ▸ hd.met hmem (by simpa using ha.1)
  have hk : Quiet net s (s.markKnown id hdr.hash) := .markKnown s id hdr.hash
  exact hk.trans (.send (hk.met hm) (by decide) _)

theorem announceTip_quiet (hd : s.Distinct) : Quiet net s (s.announceTip net) := by
  rw [announceTip]
  split
  · exact .refl s
  have hs : Quiet net s { s with lastAnnounceHeight := s.node.cs.height } :=
    .same ⟨rfl, rfl, rfl, rfl, rfl⟩
  exact hs.trans (.foldl fun t id _ ht => announceTo_quiet (ht.distinct (hs.distinct hd)) _ id)

omit [Crypto] in
theorem relayTo_next (relay : List Hash256) (s : P2P) (id : UInt64) :
    (s.relayTo net relay id).nextPeerId = s.nextPeerId := by
  rw [relayTo]
  split
  · rfl
  split
  · rfl
  split
  simp only
  split <;> rfl

theorem announceTip_next (s : P2P) : (s.announceTip net).nextPeerId = s.nextPeerId := by
  rw [announceTip]
  split
  · rfl
  refine List.foldlRecOn (motive := fun t : P2P => t.nextPeerId = s.nextPeerId) _ _ rfl
    fun t ht id _ => ?_
  rw [announceTo]
  split
  · exact ht
  split <;> exact ht

theorem processQueues_sound (h : s.Sound net) : (s.processQueues net).Sound net := by
  have h₀ : ({ s with queues := {}, addnodes := [], disconnects := [], banOps := [] } : P2P).Sound
      net := h.same ⟨rfl, rfl, rfl, rfl, rfl⟩
  have h₁ := Sound.foldl (fun t a ht => addNode_sound ht a) h₀ s.addnodes
  have h₂ := Sound.foldl (f := hangUp) (fun t id ht => ht.quiet rfl fun _ => .hangUp t id) h₁
    s.disconnects
  have h₃ := Sound.foldl (fun t b ht =>
    ht.quiet (applyBan_quiet t b : Quiet net t _).nextPeerId fun _ => applyBan_quiet t b) h₂ s.banOps
  rw [processQueues]
  generalize List.foldl applyBan _ s.banOps = t at h₃ ⊢
  have h₄ : (if s.queues.relay.isEmpty then t
      else (t.peers.map Peer.id).foldl (relayTo net s.queues.relay) t).Sound net := by
    split
    · exact h₃
    · exact Sound.foldl (fun u id hu => hu.quiet (relayTo_next _ u id) fun hd =>
        relayTo_quiet hd _ id) h₃ _
  split
  · exact h₄.quiet (announceTip_next _) fun hd => announceTip_quiet hd
  · exact h₄

/-! ## Maintenance -/

theorem pingPeer_quiet (hm : s.Met p.id) (now : Int) : Quiet net s (s.pingPeer net p now) := by
  rw [pingPeer]
  split
  · have hp : Quiet net s (s.modifyPeer p.id fun q => { q with pingSentMs := now }) :=
      .modify fun _ _ _ => Peer.Kept.quiet rfl (fun hd => hd) rfl
    exact hp.trans (.send (hp.met hm) (by decide) _)
  · exact .refl s

theorem askHeaders_quiet (hm : s.Met p.id) (now : Int) :
    Quiet net s (s.askHeaders net p now) := by
  rw [askHeaders]
  split
  · exact .sendGetheaders hm
  · exact .refl s

theorem maintainPeer_quiet (now : Int) (x : P2P × Nat) (hd : x.1.Distinct) (id : UInt64) :
    Quiet net x.1 (maintainPeer net now x id).1 := by
  rw [maintainPeer]
  split
  · exact .refl x.1
  next p hp =>
  obtain ⟨hmem, hid⟩ := peer_some hp
  split
  · exact .refl x.1
  split
  · exact .hangUp x.1 id
  simp only
  split
  · exact .refl x.1
  next ha =>
  split
  · exact .hangUp x.1 id
  · have hm : x.1.Met p.id := hd.met hmem (by simpa using ha)
    have hping : Quiet net x.1 (x.1.pingPeer net p now) := pingPeer_quiet hm now
    exact hping.trans (askHeaders_quiet (hping.met hm) now)

theorem dropStalled_quiet (now : Int) (s : P2P) (e : Hash256 × UInt64 × Int) :
    Quiet net s (dropStalled now s e) := by
  rw [dropStalled]
  split
  · have hm : Quiet net s (s.modifyPeer e.2.1 fun p =>
        { p with stalls := p.stalls + 1, disconnect := p.disconnect || p.stalls + 1 > 5 }) :=
      .modify fun q _ _ => Peer.Kept.quiet rfl (fun hd => by
        show (q.disconnect || _) = true
        rw [hd]
        exact Bool.true_or _) rfl
    exact hm.trans (.drop _ e.1)
  · exact .refl s

theorem keepManual_sound (h : s.Sound net) (a : NetAddr) : (s.keepManual net a).Sound net := by
  rw [keepManual]
  split
  · exact h
  split
  · exact h
  split
  · exact connectTo_sound h a true
  · exact h

theorem fillOutbound_sound (h : s.Sound net) (outbound : Nat) :
    (s.fillOutbound net outbound).Sound net := by
  rw [fillOutbound]
  split
  · exact h
  · exact Sound.foldl (fun t a ht => connectTo_sound ht a false) h _

omit [Crypto] in
theorem requestMissing_next (s : P2P) (now : Int) :
    (s.requestMissing net now).nextPeerId = s.nextPeerId := by
  rw [requestMissing]
  split
  · rfl
  · exact List.foldlRecOn (motive := fun t : P2P => t.nextPeerId = s.nextPeerId) _ _ rfl
      fun t ht e _ => ht

theorem requestBlocks_next (s : P2P) (now : Int) :
    (s.requestBlocks net now).nextPeerId = s.nextPeerId := by
  rw [requestBlocks]
  split
  · rcases s.snap.tryFastSync net.chain s.node.cs s.syncPeers now with ⟨f, busy, req⟩
    have hs : (({ s with snap := f } : P2P).startDownload net req).nextPeerId = s.nextPeerId := by
      cases req <;> rfl
    simp only
    split
    · exact hs
    · exact (requestMissing_next _ now).trans hs
  · exact requestMissing_next s now

theorem maintain_sound (h : s.Good net) : (s.maintain net).Sound net := by
  have h₁ : Quiet net s ((s.peers.map Peer.id).foldl (maintainPeer net (s.millis net)) (s, 0)).1 :=
    List.foldlRecOn (motive := fun x : P2P × Nat => Quiet net s x.1) _ _ (.refl s)
      fun x hx id _ => hx.trans (maintainPeer_quiet _ x (hx.distinct h.distinct) id)
  rw [maintain]
  generalize (s.peers.map Peer.id).foldl (maintainPeer net (s.millis net)) (s, 0) = x at h₁ ⊢
  obtain ⟨t, outbound⟩ := x
  have h₂ := h₁.trans (.foldl (l := pairs t.inflight) fun u e _ _ =>
    dropStalled_quiet (s.millis net) u e)
  have h₃ := Sound.foldl (fun u a hu => keepManual_sound hu a) (fun _ => h.quiet h₂)
    (((pairs t.inflight).foldl (dropStalled (s.millis net)) t).addrs.keys.mergeSort NetAddr.le)
  exact (fillOutbound_sound h₃ outbound).quiet (requestBlocks_next _ _) fun hd =>
    requestBlocks_quiet hd

/-! ## The end of an iteration -/

omit [Crypto] in
theorem forgetRequests_spec (m : UMap Hash256 (UInt64 × Int)) (id : UInt64) :
    (∀ b v, (forgetRequests m id).lookup b = some v → m.lookup b = some v ∧ v.1 ≠ id) ∧
      ∀ id', loadOf (forgetRequests m id) id' ≤ loadOf m id' := by
  -- what is left after the entries of a list were gone through
  have hloop : ∀ (l : List (Hash256 × UInt64 × Int)) (m₀ : UMap Hash256 (UInt64 × Int)),
      (∀ b v, (l.foldl (fun m e => if e.2.1 = id then m.erase e.1 else m) m₀).lookup b = some v →
        m₀.lookup b = some v ∧ ∀ e ∈ l, e.1 = b → e.2.1 ≠ id) ∧
      ∀ id', loadOf (l.foldl (fun m e => if e.2.1 = id then m.erase e.1 else m) m₀) id' ≤
        loadOf m₀ id' := by
    intro l
    induction l with
    | nil => exact fun m₀ => ⟨fun b v h => ⟨h, fun e he => absurd he List.not_mem_nil⟩,
        fun _ => Nat.le_refl _⟩
    | cons e l ih =>
        intro m₀
        rw [List.foldl_cons]
        obtain ⟨hl, hload⟩ := ih (if e.2.1 = id then m₀.erase e.1 else m₀)
        refine ⟨fun b v hv => ?_, fun id' => (hload id').trans ?_⟩
        · obtain ⟨hv, hall⟩ := hl b v hv
          split at hv
          · rw [lookup_erase_ite] at hv
            split at hv
            · cases hv
            · next hb =>
                refine ⟨hv, fun e' he' heq => ?_⟩
                rcases List.mem_cons.mp he' with rfl | he'
                · exact absurd heq.symm hb
                · exact hall e' he' heq
          · next hid =>
              refine ⟨hv, fun e' he' heq => ?_⟩
              rcases List.mem_cons.mp he' with rfl | he'
              · exact hid
              · exact hall e' he' heq
        · split
          · exact loadOf_erase_le _ _ _
          · exact Nat.le_refl _
  obtain ⟨hl, hload⟩ := hloop (pairs m) m
  refine ⟨fun b v hv => ?_, hload⟩
  obtain ⟨hm, hall⟩ := hl b v hv
  exact ⟨hm, hall (b, v) (mem_pairs.mpr hm) rfl⟩

omit [Crypto] in
theorem forgetAll_spec (m : UMap Hash256 (UInt64 × Int)) (ids : List UInt64) :
    (∀ b v, (ids.foldl forgetRequests m).lookup b = some v → m.lookup b = some v ∧ v.1 ∉ ids) ∧
      ∀ id, loadOf (ids.foldl forgetRequests m) id ≤ loadOf m id := by
  induction ids generalizing m with
  | nil => exact ⟨fun b v h => ⟨h, List.not_mem_nil⟩, fun _ => Nat.le_refl _⟩
  | cons id ids ih =>
      obtain ⟨hl, hload⟩ := ih (forgetRequests m id)
      obtain ⟨hf, hfload⟩ := forgetRequests_spec m id
      rw [List.foldl_cons]
      refine ⟨fun b v hv => ?_, fun id' => (hload id').trans (hfload id')⟩
      obtain ⟨hv, hn⟩ := hl b v hv
      obtain ⟨hv, hne⟩ := hf b v hv
      exact ⟨hv, fun hm => (List.mem_cons.mp hm).elim hne hn⟩

theorem reap_good (h : s.Good net) : s.reap.Good net := by
  have hsub : s.reap.keys.Sublist s.keys := List.filter_sublist.map _
  have hmem : ∀ k ∈ s.reap.keys, k ∈ s.keys := fun k hk => hsub.subset hk
  obtain ⟨hl, hload⟩ := forgetAll_spec s.inflight ((s.peers.filter Peer.disconnect).map Peer.id)
  refine ⟨⟨fun k hk => h.keys.numbered k (hmem k hk), fun k hk => h.keys.connecting k (hmem k hk),
    fun k hk => h.keys.ours k (hmem k hk), fun k hk => h.keys.verack k (hmem k hk),
    h.keys.apart.sublist hsub, (hsub.countP_le).trans h.keys.inbound⟩,
    fun q hq => h.greeted q (List.mem_filter.mp hq).1,
    ⟨fun b id t hb => ?_, fun id => (hload id).trans (h.downloads.load id)⟩, h.running⟩
  obtain ⟨hb, hn⟩ := hl b (id, t) hb
  obtain ⟨⟨k, hk, hid, hrest⟩, hw⟩ := h.downloads.asked b id t hb
  obtain ⟨q, hq, rfl⟩ := List.mem_map.mp hk
  refine ⟨⟨q.key, List.mem_map_of_mem (List.mem_filter.mpr ⟨hq, ?_⟩), hid, hrest⟩, hw⟩
  cases hd : q.disconnect with
  | false => rfl
  | true =>
      exact absurd (List.mem_map.mpr ⟨q, List.mem_filter.mpr ⟨hq, hd⟩, hid⟩) hn

/-! ## Every event -/

theorem command_quiet (s : P2P) (c : NodeCmd) : Quiet net s (s.command net c) := by
  cases c with
  | accept tx => exact .acceptTx s tx
  | header h => exact .command (c := .header h) rfl rfl rfl rfl rfl
  | block b w => exact .thenActivate (c := .block b w) rfl
  | snapshot x => exact .thenActivate (c := .snapshot x) rfl
  | flush => exact .command (c := .flush) rfl rfl rfl rfl rfl
  | restart => exact .refl s

theorem lanRead_sound (h : s.Sound net) (a : NetAddr) (data : Bytes) :
    (s.lanRead net a data).Sound net := by
  rw [lanRead]
  split
  · exact h
  simp only
  split
  · exact h
  split
  · exact h.same (addAddr_same _ _ _)
  · exact connectTo_sound (h.same (addAddr_same _ _ _)) _ _

theorem connectionReady_good (h : s.Good net) (id : UInt64) (failed : Bool) :
    (s.connectionReady net id failed).Good net := by
  rw [connectionReady]
  split
  · exact h
  next p hp =>
  split
  · exact h
  next hc =>
  split
  · exact h.quiet (.hangUp s id)
  · exact onConnected_good h (peer_some hp).1 (by simpa using hc)

theorem step_good (h : s.Good net) (e : NetEvent) (hfit : (s.step net e).nextPeerId ≤ 2 ^ 64) :
    (s.step net e).Good net := by
  have ha : s.asked.Good net := h.quiet (.asked s)
  cases e with
  | accept a => exact acceptInbound_sound (fun _ => ha) a hfit
  | connected id failed => exact connectionReady_good ha id failed
  | recv id chunks closed =>
      rw [step]
      split
      · next p hp =>
          split
          · exact ha
          · next hc =>
              refine readPeer_good ha (fun q hq hid => ?_) chunks closed
              obtain ⟨hmem, hid'⟩ := peer_some hp
              rw [ha.peer_unique hmem hq (hid.trans hid'.symm)]
              simpa using hc
      · exact ha
  | broken id => exact ha.quiet (.hangUp _ id)
  | found a => exact ha.quiet (.same (addAddr_same _ a false))
  | seenAs a => exact ha.quiet (.same (learnedExternal_same _ _))
  | lan a data => exact lanRead_sound (fun _ => ha) a data hfit
  | queues => exact processQueues_sound (fun _ => ha) hfit
  | maintain => exact maintain_sound ha hfit
  | reap => exact reap_good ha
  | relay h => exact ha.quiet (.same ⟨rfl, rfl, rfl, rfl, rfl⟩)
  | addNode a => exact ha.quiet (.same ⟨rfl, rfl, rfl, rfl, rfl⟩)
  | disconnect id => exact ha.quiet (.same ⟨rfl, rfl, rfl, rfl, rfl⟩)
  | ban op => exact ha.quiet (.same ⟨rfl, rfl, rfl, rfl, rfl⟩)
  | command c => exact ha.quiet (command_quiet _ c)

/-- The invariant of every state an engine gets into. -/
theorem Reached.good (h : Reached net s) : s.Good net := by
  induction h with
  | start hn addrs banned =>
      refine ⟨⟨?_, ?_, ?_, ?_, List.Pairwise.nil, Nat.zero_le _⟩, ?_, ⟨fun b id t hl => ?_, ?_⟩, hn⟩
      · exact fun k hk => absurd hk List.not_mem_nil
      · exact fun k hk => absurd hk List.not_mem_nil
      · exact fun k hk => absurd hk List.not_mem_nil
      · exact fun k hk => absurd hk List.not_mem_nil
      · exact fun p hp => absurd hp List.not_mem_nil
      · replace hl : (∅ : UMap Hash256 (UInt64 × Int)).lookup b = some (id, t) := hl
        rw [AList.lookup_empty] at hl
        cases hl
      · exact fun _ => Nat.zero_le _
  | step _ e hfit ih => exact step_good ih e hfit

end P2P

end QuantCore
