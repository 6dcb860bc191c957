import QuantCore.Proofs.Handlers

/-!
# Handshakes

Whatever arrives in whatever order, the peers that have introduced themselves
are on our network and are different nodes, none of them ourselves; outbound
connections go to different addresses and there are no more inbound ones than
allowed. What a node says on a connection is its version, then `verack`, then
anything else. What is in flight is with peers one can wait for.

All of it is one invariant. The engine keeps it as long as it makes no more
connections than their ids can count.
-/

namespace QuantCore

open Codec Maps

/-- Two connections of one engine. -/
structure PeerKey.Apart (k k' : PeerKey) : Prop where
  id : k.id ≠ k'.id
  nonce : k.gotVersion = true → k'.gotVersion = true → k.ver.nonce ≠ k'.ver.nonce
  addr : k.inbound = false → k'.inbound = false → k.addr ≠ k'.addr

theorem PeerKey.Apart.symm {k k' : PeerKey} (h : k.Apart k') : k'.Apart k :=
  ⟨h.id.symm, fun hv hv' => (h.nonce hv' hv).symm, fun hi hi' => (h.addr hi' hi).symm⟩

instance : Std.Symm PeerKey.Apart := ⟨fun _ _ h => h.symm⟩

/-- How far our side of the handshake is: nothing said, the version, or all of it. -/
def PeerKey.stage (k : PeerKey) : Nat :=
  if k.gotVersion then 2 else if k.connecting || k.inbound then 0 else 1

theorem PeerKey.stage_met {k : PeerKey} (h : k.gotVersion = true) : k.stage = 2 := if_pos h

variable [Crypto] (net : P2PConfig)

/-- The version message says who we are. -/
def OurVersion (m : Cmd × Bytes) : Prop :=
  ∃ v : VersionMsg, m = (Cmd.version, v.encode) ∧ v.nonce = net.nonce ∧
    v.genesis = net.chain.params.genesisHash

/-- What is said up to a stage of the handshake. -/
def Spoken : Nat → List (Cmd × Bytes) → Prop
  | 0, out => out = []
  | 1, out => ∃ m, out = [m] ∧ OurVersion net m
  | _, out => ∃ m rest, out = m :: (Cmd.verack, []) :: rest ∧ OurVersion net m ∧
      ∀ m ∈ rest, m.1.Ordinary

/-- What a peer was sent is the handshake up to a stage, unless the peer was
hung up on before. -/
def Peer.Said (p : Peer) (n : Nat) : Prop :=
  ∃ m, Spoken net m p.out ∧ (p.disconnect = false → m = n)

/-- What a peer was sent is the handshake as far as it has come. -/
def Peer.Greeted (p : Peer) : Prop := p.Said net p.key.stage

/-- What holds of the connections. -/
structure Handshaken (keys : List PeerKey) (next : Nat) : Prop where
  numbered : ∀ k ∈ keys, ∃ n, n < next ∧ k.id = UInt64.ofNat n
  connecting : ∀ k ∈ keys, k.connecting = true → k.gotVersion = false ∧ k.inbound = false
  ours : ∀ k ∈ keys, k.gotVersion = true →
    k.ver.genesis = net.chain.params.genesisHash ∧ k.ver.nonce ≠ net.nonce
  verack : ∀ k ∈ keys, k.gotVerack = true → k.gotVersion = true
  apart : keys.Pairwise PeerKey.Apart
  inbound : keys.countP PeerKey.inbound ≤ net.maxInbound

namespace P2P

/-- The invariant. -/
structure Good (s : P2P) : Prop where
  keys : Handshaken net s.keys s.nextPeerId
  greeted : ∀ p ∈ s.peers, p.Greeted net
  downloads : s.Downloads
  running : s.Running net

/-- The invariant, while ids are not used twice. -/
def Sound (s : P2P) : Prop := s.nextPeerId ≤ 2 ^ 64 → s.Good net

variable {net} {s t : P2P} {p : Peer}

omit [Crypto] in
theorem exists_of_forall₂ {α β : Type} {R : α → β → Prop} {as : List α} {bs : List β}
    (h : List.Forall₂ R as bs) {b : β} (hb : b ∈ bs) : ∃ a ∈ as, R a b := by
  induction h with
  | nil => exact absurd hb List.not_mem_nil
  | cons hab _ ih =>
      rcases List.mem_cons.mp hb with rfl | hb
      · exact ⟨_, List.mem_cons_self, hab⟩
      · obtain ⟨a, ha, hr⟩ := ih hb
        exact ⟨a, List.mem_cons_of_mem _ ha, hr⟩

theorem Greeted.kept {p q : Peer} (h : p.Greeted net) (hk : p.Kept q) : q.Greeted net := by
  obtain ⟨n, hn, hstage⟩ := h
  obtain ⟨l, hl, hord, hgot⟩ := hk.said
  by_cases hnil : l = []
  · refine ⟨n, ?_, fun hd => ?_⟩
    · rwa [hl, hnil, List.append_nil]
    · rw [hk.key]
      refine hstage ?_
      cases hp : p.disconnect with
      | false => rfl
      | true => exact absurd (hk.hung hp) (by rw [hd]; exact Bool.false_ne_true)
  · obtain ⟨hv, hd⟩ := hgot hnil
    have h2 : n = 2 := by
      rw [hstage hd, PeerKey.stage_met hv]
    subst h2
    obtain ⟨m, rest, hout, hm, hrest⟩ := hn
    refine ⟨2, ⟨m, rest ++ l, ?_, hm, fun m' hm' => ?_⟩, fun _ => ?_⟩
    · rw [hl, hout]
      rfl
    · rcases List.mem_append.mp hm' with h | h
      · exact hrest m' h
      · exact hord m' h
    · rw [hk.key, PeerKey.stage_met hv]

theorem Good.quiet (h : s.Good net) (hq : Quiet net s t) : t.Good net where
  keys := by
    rw [hq.keys, hq.nextPeerId]
    exact h.keys
  greeted q hq' := by
    obtain ⟨p, hp, hk⟩ := exists_of_forall₂ hq.peers hq'
    exact Greeted.kept (h.greeted p hp) hk
  downloads := hq.downloads h.downloads
  running := hq.node h.running

theorem Good.distinct (h : s.Good net) : s.Distinct := by
  rw [Distinct, List.Nodup, List.pairwise_map]
  exact h.keys.apart.imp fun h => h.id

/-- Peers are told apart by their ids. -/
theorem Good.peer_unique (h : s.Good net) {p q : Peer} (hp : p ∈ s.peers) (hq : q ∈ s.peers)
    (hid : q.id = p.id) : q = p := by
  have hd := h.distinct
  rw [Distinct, P2P.keys, List.map_map] at hd
  exact List.inj_on_of_nodup_map hd hq hp hid

/-! ## A step of a handshake -/

/-- What a step of a peer's handshake may make of it. -/
structure Advances (net : P2PConfig) (s : P2P) (p q : Peer) : Prop where
  id : q.id = p.id
  addr : q.addr = p.addr
  inbound : q.inbound = p.inbound
  connecting : q.connecting = true → q.gotVersion = false ∧ q.inbound = false
  ours : q.gotVersion = true →
    q.ver.genesis = net.chain.params.genesisHash ∧ q.ver.nonce ≠ net.nonce
  others : q.gotVersion = true →
    ∀ o ∈ s.peers, o.id ≠ p.id → o.gotVersion = true → o.ver.nonce ≠ q.ver.nonce
  verack : q.gotVerack = true → q.gotVersion = true
  stays : p.gotVersion = true → p.gotVerack = true →
    q.gotVersion = true ∧ q.gotVerack = true ∧ q.ver = p.ver
  greeted : q.Greeted net

theorem Good.advance (h : s.Good net) (hp : p ∈ s.peers) {f : Peer → Peer}
    (hf : Advances net s p (f p)) : (s.modifyPeer p.id f).Good net := by
  have hmem : ∀ q ∈ (s.modifyPeer p.id f).peers, q = f p ∨ q ∈ s.peers ∧ q.id ≠ p.id := by
    intro q hq
    obtain ⟨o, ho, rfl⟩ := List.mem_map.mp hq
    split
    · next hid => exact Or.inl (by rw [h.peer_unique hp ho hid])
    · next hid => exact Or.inr ⟨ho, hid⟩
  have hkeys : ∀ k ∈ (s.modifyPeer p.id f).keys, k = (f p).key ∨ k ∈ s.keys ∧ k.id ≠ p.id := by
    intro k hk
    obtain ⟨q, hq, rfl⟩ := List.mem_map.mp hk
    rcases hmem q hq with rfl | ⟨hq, hid⟩
    · exact Or.inl rfl
    · exact Or.inr ⟨List.mem_map_of_mem hq, hid⟩
  have hpk := List.mem_map_of_mem (f := Peer.key) hp
  refine ⟨⟨?_, ?_, ?_, ?_, ?_, ?_⟩, ?_, ⟨?_, h.downloads.load⟩, h.running⟩
  · intro k hk
    rcases hkeys k hk with rfl | ⟨hk, -⟩
    · obtain ⟨n, hn, hid⟩ := h.keys.numbered p.key hpk
      exact ⟨n, hn, hf.id.trans hid⟩
    · exact h.keys.numbered k hk
  · intro k hk
    rcases hkeys k hk with rfl | ⟨hk, -⟩
    · exact hf.connecting
    · exact h.keys.connecting k hk
  · intro k hk
    rcases hkeys k hk with rfl | ⟨hk, -⟩
    · exact hf.ours
    · exact h.keys.ours k hk
  · intro k hk
    rcases hkeys k hk with rfl | ⟨hk, -⟩
    · exact hf.verack
    · exact h.keys.verack k hk
  · -- the pairs without the peer are as they were
    have hap := h.keys.apart
    rw [P2P.keys, List.pairwise_map] at hap
    rw [P2P.keys, List.pairwise_map]
    refine List.pairwise_map.mpr (hap.imp_of_mem fun {a b} ha hb hab => ?_)
    have hside : ∀ a ∈ s.peers, a.id ≠ p.id → p.key.Apart a.key → (f p).key.Apart a.key :=
      fun a ha hid hpa => ⟨fun he => hpa.id (hf.id.symm.trans he),
        fun hv hv' hn => hf.others hv a ha hid hv' hn.symm,
        fun hi hi' he => hpa.addr (hf.inbound.symm.trans hi) hi' (hf.addr.symm.trans he)⟩
    split
    · next hia =>
        have hpa := h.peer_unique hp ha hia
        subst hpa
        rw [if_neg fun hib => hab.id hib.symm]
        exact hside b hb (fun hib => hab.id hib.symm) hab
    · next hia =>
        split
        · next hib =>
            have hpb := h.peer_unique hp hb hib
            subst hpb
            exact (hside a ha hia hab.symm).symm
        · exact hab
  · refine le_of_eq_of_le ?_ h.keys.inbound
    rw [P2P.keys, P2P.keys, modifyPeer, List.countP_map, List.countP_map, List.countP_map]
    refine List.countP_congr fun q hq => ?_
    simp only [Function.comp]
    split
    · next hid =>
        rw [h.peer_unique hp hq hid]
        exact iff_of_eq (congrArg (· = true) hf.inbound)
    · exact Iff.rfl
  · intro q hq
    rcases hmem q hq with rfl | ⟨hq, -⟩
    · exact hf.greeted
    · exact h.greeted q hq
  · intro b id t hl
    obtain ⟨⟨k, hk, hid, hv, ha, hs⟩, hw⟩ := h.downloads.asked b id t hl
    obtain ⟨q, hq, rfl⟩ := List.mem_map.mp hk
    refine ⟨?_, hw⟩
    by_cases hqp : q.id = p.id
    · have heq := h.peer_unique hp hq hqp
      subst heq
      obtain ⟨hv', ha', hver⟩ := hf.stays hv ha
      refine ⟨(f q).key, List.mem_map_of_mem (List.mem_map.mpr ⟨q, hq, if_pos rfl⟩),
        hf.id.trans hid, hv', ha', ?_⟩
      show (f q).ver.services &&& serviceFull ≠ 0
      rw [hver]
      exact hs
    · exact ⟨q.key, List.mem_map_of_mem (List.mem_map.mpr ⟨q, hq, if_neg hqp⟩), hid, hv, ha, hs⟩

/-! ## Finding a peer -/

omit [Crypto] in
theorem peer_some {id : UInt64} (h : s.peer id = some p) : p ∈ s.peers ∧ p.id = id := by
  rw [peer] at h
  exact ⟨List.mem_of_find?_eq_some h, by simpa using List.find?_some h⟩

theorem Good.met (h : s.Good net) (hp : p ∈ s.peers) (hv : p.gotVersion = true) :
    s.Met p.id := by
  intro k hk hid
  rw [List.inj_on_of_nodup_map h.distinct hk (List.mem_map_of_mem hp) hid]
  exact hv

/-- Different peers are different nodes. -/
theorem Good.apart (h : s.Good net) {p q : Peer} (hp : p ∈ s.peers) (hq : q ∈ s.peers)
    (hid : p.id ≠ q.id) : p.key.Apart q.key :=
  h.keys.apart.forall (List.mem_map_of_mem hp) (List.mem_map_of_mem hq)
    fun he => hid (congrArg PeerKey.id he)

omit [Crypto] in
theorem modifyPeer_modifyPeer (s : P2P) (id : UInt64) {f g : Peer → Peer}
    (hf : ∀ p, (f p).id = p.id) :
    (s.modifyPeer id f).modifyPeer id g = s.modifyPeer id fun p => g (f p) := by
  rw [modifyPeer, modifyPeer, modifyPeer, List.map_map]
  refine congrArg (fun ps => ({ s with peers := ps } : P2P)) (List.map_congr_left fun p _ => ?_)
  simp only [Function.comp]
  by_cases h : p.id = id
  · rw [if_pos h, if_pos h, if_pos ((hf p).trans h)]
  · rw [if_neg h, if_neg h, if_neg h]

omit [Crypto] in
theorem Same.trans {u : P2P} (h : Same s t) (h' : Same t u) : Same s u :=
  ⟨h'.peers.trans h.peers, h'.nextPeerId.trans h.nextPeerId, h'.inflight.trans h.inflight,
    h'.noWitness.trans h.noWitness, h'.node.trans h.node⟩

omit [Crypto] in
theorem Same.modify (h : Same s t) (id : UInt64) (f : Peer → Peer) :
    Same (s.modifyPeer id f) (t.modifyPeer id f) :=
  ⟨congrArg (List.map _) h.peers, h.nextPeerId, h.inflight, h.noWitness, h.node⟩

omit [Crypto] in
/-- A message to a peer that has just been changed. -/
theorem Same.send (s : P2P) (id : UInt64) {f : Peer → Peer} (hf : ∀ p, (f p).id = p.id) (c : Cmd)
    (payload : Bytes) :
    Same (s.modifyPeer id fun p => (f p).put c payload (net.env.breaks s.io))
      ((s.modifyPeer id f).send net id c payload) := by
  rw [← modifyPeer_modifyPeer s id (g := fun p => p.put c payload (net.env.breaks s.io)) hf]
  exact ⟨rfl, rfl, rfl, rfl, rfl⟩

/-! ## Saying something -/

omit [Crypto] in
theorem put_key (p : Peer) (c : Cmd) (payload : Bytes) (breaks : Bool) :
    (p.put c payload breaks).key = p.key := by
  rw [Peer.put]
  split <;> rfl

theorem hello_ours (net : P2PConfig) (s : P2P) (p : Peer) : OurVersion net (Cmd.version, (s.hello net p).encode) :=
  ⟨s.hello net p, rfl, rfl, rfl⟩

/-- The next message of the handshake: what was said goes a stage further, unless
the connection breaks or was broken. -/
theorem said_put {p : Peer} {n : Nat} (h : p.Said net n) {c : Cmd} {payload : Bytes}
    (hnext : ∀ out, Spoken net n out → Spoken net (n + 1) (out ++ [(c, payload)]))
    (breaks : Bool) : (p.put c payload breaks).Said net (n + 1) := by
  obtain ⟨m, hm, hn⟩ := h
  rw [Peer.put]
  split
  · next hp => exact ⟨m, hm, fun hf => absurd (hp.symm.trans hf) Bool.noConfusion⟩
  · next hp =>
      refine ⟨n + 1, hnext _ ?_, fun _ => rfl⟩
      rwa [hn (Bool.eq_false_iff.mpr hp)] at hm

theorem spoken_version {m : Cmd × Bytes} (hm : OurVersion net m) (out : List (Cmd × Bytes))
    (h : Spoken net 0 out) : Spoken net 1 (out ++ [m]) := by
  rw [show out = [] from h]
  exact ⟨m, rfl, hm⟩

theorem spoken_verack (out : List (Cmd × Bytes)) (h : Spoken net 1 out) :
    Spoken net 2 (out ++ [(Cmd.verack, [])]) := by
  obtain ⟨m, rfl, hm⟩ := h
  exact ⟨m, [], rfl, hm, fun _ h => absurd h List.not_mem_nil⟩

/-! ## Our version -/

/-- A connection of ours is ready. -/
theorem onConnected_good (h : s.Good net) (hp : p ∈ s.peers) (hc : p.connecting = true) :
    (s.onConnected net p).Good net := by
  obtain ⟨hv, hi⟩ := h.keys.connecting p.key (List.mem_map_of_mem hp) hc
  replace hv : p.gotVersion = false := hv
  replace hi : p.inbound = false := hi
  have hstage : p.key.stage = 0 := by
    simp [PeerKey.stage, Peer.key, hv, hc]
  have hsaid : (p.ready (s.millis net)).Said net 0 := hstage ▸ h.greeted p hp
  rw [onConnected]
  refine Good.quiet (h.advance hp ?_)
    (.same (.send s p.id (f := fun q => q.ready (s.millis net)) (fun _ => rfl) _ _))
  have hours := hello_ours net (s.modifyPeer p.id fun q => q.ready (s.millis net)) p
  generalize (P2P.hello net _ p).encode = payload at hours ⊢
  generalize net.env.breaks s.io = breaks
  have hk := put_key (p.ready (s.millis net)) Cmd.version payload breaks
  have hput := said_put hsaid (spoken_version hours) breaks
  generalize (p.ready (s.millis net)).put Cmd.version payload breaks = q at hk hput ⊢
  have hqv : q.gotVersion = false := (congrArg PeerKey.gotVersion hk).trans hv
  have hqc : q.connecting = false := congrArg PeerKey.connecting hk
  have hqi : q.inbound = false := (congrArg PeerKey.inbound hk).trans hi
  have hstage' : q.key.stage = 1 := by
    simp [PeerKey.stage, Peer.key, hqv, hqc, hqi]
  refine ⟨congrArg PeerKey.id hk, congrArg PeerKey.addr hk, congrArg PeerKey.inbound hk,
    fun hc => absurd (hqc.symm.trans hc) Bool.noConfusion,
    fun hv => absurd (hqv.symm.trans hv) Bool.noConfusion,
    fun hv => absurd (hqv.symm.trans hv) Bool.noConfusion, fun ha => ?_,
    fun hv' => absurd (hv.symm.trans hv') Bool.noConfusion, ?_⟩
  · have ha' : p.gotVerack = true := (congrArg PeerKey.gotVerack hk).symm.trans ha
    have hgot := h.keys.verack p.key (List.mem_map_of_mem hp) ha'
    exact absurd (hv.symm.trans hgot) Bool.noConfusion
  · rw [Peer.Greeted, hstage']
    exact hput

/-! ## The peer's version -/

omit [Crypto] in
theorem Same.modify_modify {id : UInt64} {f g : Peer → Peer} (hf : ∀ p, (f p).id = p.id)
    (h : Same (s.modifyPeer id f) t) :
    Same (s.modifyPeer id fun p => g (f p)) (t.modifyPeer id g) := by
  rw [← modifyPeer_modifyPeer s id hf]
  exact h.modify id g

/-- What the messages of a handshake make of the peer whose version is welcome. -/
theorem Advances.welcome (hv : p.gotVersion = false)
    (hc : p.connecting = false) (hgen : p.ver.genesis = net.chain.params.genesisHash)
    (hself : p.ver.nonce ≠ net.nonce)
    (hother : ∀ o ∈ s.peers, o.id ≠ p.id → o.gotVersion = true → o.ver.nonce ≠ p.ver.nonce)
    {q : Peer} (hk : q.key = { p.key with gotVersion := true }) (hsaid : q.Said net 2) :
    Advances net s p q := by
  have hqv : q.gotVersion = true := congrArg PeerKey.gotVersion hk
  have hqc : q.connecting = false := (congrArg PeerKey.connecting hk).trans hc
  have hver : q.ver = p.ver := congrArg PeerKey.ver hk
  refine ⟨congrArg PeerKey.id hk, congrArg PeerKey.addr hk, congrArg PeerKey.inbound hk,
    fun hc' => absurd (hqc.symm.trans hc') Bool.noConfusion, fun _ => ?_, fun _ => ?_,
    fun _ => hqv, fun hv' => absurd (hv.symm.trans hv') Bool.noConfusion, ?_⟩
  · rw [hver]
    exact ⟨hgen, hself⟩
  · rw [hver]
    exact hother
  · rw [Peer.Greeted, PeerKey.stage_met (show q.key.gotVersion = true from hqv)]
    exact hsaid

theorem welcome_good (h : s.Good net) (hp : p ∈ s.peers) (hv : p.gotVersion = false)
    (hc : p.connecting = false) (hgen : p.ver.genesis = net.chain.params.genesisHash)
    (hself : p.ver.nonce ≠ net.nonce)
    (hother : ∀ o ∈ s.peers, o.id ≠ p.id → o.gotVersion = true → o.ver.nonce ≠ p.ver.nonce) :
    (s.welcome net p p.ver).Good net := by
  have hgreet := h.greeted p hp
  rw [welcome]
  simp only
  cases hi : p.inbound with
  | false =>
      rw [if_neg Bool.noConfusion]
      have hl := learnedExternal_same (s.modifyPeer p.id fun q => q.introduce p.ver)
        (p.ver.yourAddr.withPort net.port)
      generalize P2P.learnedExternal _ _ = t at hl ⊢
      have hstage : p.key.stage = 1 := by
        simp [PeerKey.stage, Peer.key, hv, hc, hi]
      have hsaid : (p.introduce p.ver).Said net 1 := hstage ▸ hgreet
      refine Good.quiet (h.advance hp (.welcome hv hc hgen hself hother ?_
        (said_put hsaid spoken_verack (net.env.breaks t.io)))) (.same
          ((Same.modify_modify (f := fun q => q.introduce p.ver) (fun _ => rfl) hl).trans
            ⟨rfl, rfl, rfl, rfl, rfl⟩))
      exact put_key ..
  | true =>
      rw [if_pos rfl]
      have ha : Same (s.modifyPeer p.id fun q => q.introduce p.ver)
          (if p.ver.listenPort ≠ 0 then (s.modifyPeer p.id fun q => q.introduce p.ver).addAddr
            (p.addr.withPort p.ver.listenPort) false
          else s.modifyPeer p.id fun q => q.introduce p.ver) := by
        split
        · exact addAddr_same _ _ _
        · exact ⟨rfl, rfl, rfl, rfl, rfl⟩
      generalize (if p.ver.listenPort ≠ 0 then _ else _ : P2P) = t at ha ⊢
      rw [onConnected]
      have hours := hello_ours net (t.modifyPeer p.id fun q => q.ready (t.millis net)) p
      generalize (P2P.hello net _ p).encode = payload at hours ⊢
      have hc' := (Same.modify_modify (f := fun q => q.introduce p.ver) (g := fun q =>
        (q.ready (t.millis net)).put Cmd.version payload (net.env.breaks t.io)) (fun _ => rfl)
        ha).trans (.send t p.id (f := fun q => q.ready (t.millis net)) (fun _ => rfl) _ payload)
      generalize P2P.send net (t.modifyPeer p.id _) p.id _ payload = t₂ at hc' ⊢
      have hl := hc'.trans (learnedExternal_same t₂ (p.ver.yourAddr.withPort net.port))
      generalize P2P.learnedExternal _ _ = t₃ at hl ⊢
      have hstage : p.key.stage = 0 := by
        simp [PeerKey.stage, Peer.key, hv, hi]
      have hsaid : ((p.introduce p.ver).ready (t.millis net)).Said net 0 := hstage ▸ hgreet
      have hid : ∀ q : Peer, (((q.introduce p.ver).ready (t.millis net)).put Cmd.version payload
          (net.env.breaks t.io)).id = q.id := fun q => congrArg PeerKey.id (put_key ..)
      refine Good.quiet (h.advance hp (.welcome hv hc hgen hself hother ?_
        (said_put (said_put hsaid (spoken_version hours) (net.env.breaks t.io)) spoken_verack
          (net.env.breaks t₃.io)))) (.same
            ((Same.modify_modify hid hl).trans ⟨rfl, rfl, rfl, rfl, rfl⟩))
      rw [put_key, put_key]
      exact congrArg (fun c => { p.key with gotVersion := true, connecting := c }) hc.symm

theorem handleVersion_good (h : s.Good net) (hp : p ∈ s.peers) (hc : p.connecting = false)
    (payload : Bytes) : (s.handleVersion net p payload).1.Good net := by
  rw [handleVersion]
  split
  · exact h.quiet (.misbehave s p false)
  next hv =>
  replace hv : p.gotVersion = false := Bool.eq_false_iff.mpr hv
  split
  · exact h
  next v rest _ =>
  have hg : (s.modifyPeer p.id fun q => { q with ver := v }).Good net := by
    refine h.advance hp ⟨rfl, rfl, rfl, h.keys.connecting p.key (List.mem_map_of_mem hp),
      fun hv' => absurd (hv.symm.trans hv') Bool.noConfusion,
      fun hv' => absurd (hv.symm.trans hv') Bool.noConfusion,
      h.keys.verack p.key (List.mem_map_of_mem hp),
      fun hv' => absurd (hv.symm.trans hv') Bool.noConfusion, h.greeted p hp⟩
  have hp' : { p with ver := v } ∈ (s.modifyPeer p.id fun q => { q with ver := v }).peers :=
    List.mem_map.mpr ⟨p, hp, if_pos rfl⟩
  generalize (s.modifyPeer p.id fun q => { q with ver := v }) = t at hg hp' ⊢
  simp only
  split
  · exact hg.quiet (.misbehave t p false)
  next hgen =>
  split
  · refine hg.quiet (Quiet.trans (.same ?_) (.hangUp _ p.id))
    split <;> exact ⟨rfl, rfl, rfl, rfl, rfl⟩
  next hself =>
  split
  · exact hg.quiet (.hangUp t p.id)
  next hany =>
  refine welcome_good hg hp' hv hc (not_not.mp hgen) hself fun o ho hid hgot hn => hany ?_
  rw [List.any_eq_true]
  exact ⟨o, ho, decide_eq_true ⟨hid, hgot, hn⟩⟩

omit [Crypto] in
theorem noteGood_same (net : P2PConfig) (s : P2P) (p : Peer) : Same s (s.noteGood net p) := by
  rw [noteGood]
  split <;> exact ⟨rfl, rfl, rfl, rfl, rfl⟩

theorem askPeer_quiet (hm : s.Met p.id) : Quiet net s (s.askPeer net p) := by
  rw [askPeer]
  split
  · split
    · exact .sendGetheaders hm
    · have ha := (Quiet.send hm (c := Cmd.getAddr) (by decide) [] : Quiet net s _)
      exact ha.trans (.sendGetheaders (ha.met hm))
  · exact .refl s

theorem tellAddrs_quiet (hm : s.Met p.id) : Quiet net s (s.tellAddrs net p) := by
  rw [tellAddrs]
  split
  · exact .refl s
  · exact .send hm (by decide) _

theorem handleVerack_good (h : s.Good net) (hp : p ∈ s.peers) (hv : p.gotVersion = true) :
    (s.handleVerack net p).Good net := by
  have hg : (s.modifyPeer p.id fun q => { q with gotVerack := true }).Good net :=
    h.advance hp ⟨rfl, rfl, rfl, h.keys.connecting p.key (List.mem_map_of_mem hp),
      h.keys.ours p.key (List.mem_map_of_mem hp), fun _ o ho hid hgot =>
        (h.apart ho hp hid).nonce hgot hv, fun _ => hv, fun _ _ => ⟨hv, rfl, rfl⟩,
      h.greeted p hp⟩
  have hp' : { p with gotVerack := true } ∈
      (s.modifyPeer p.id fun q => { q with gotVerack := true }).peers :=
    List.mem_map.mpr ⟨p, hp, if_pos rfl⟩
  rw [handleVerack]
  generalize (s.modifyPeer p.id fun q => { q with gotVerack := true }) = t at hg hp' ⊢
  have hm : t.Met p.id := hg.met (p := { p with gotVerack := true }) hp' hv
  have hq : Quiet net t (t.noteGood net p) := .same (noteGood_same net t p)
  have hask := hq.trans (askPeer_quiet (hq.met hm))
  exact hg.quiet (hask.trans (tellAddrs_quiet (hask.met hm)))

/-- A message from a peer keeps the invariant. -/
theorem handle_good (h : s.Good net) (hp : p ∈ s.peers) (hc : p.connecting = false) (c : Cmd)
    (payload : Bytes) : (s.handle net p c payload).1.Good net := by
  by_cases hver : c = Cmd.version
  · subst hver
    rw [handle, if_neg fun hn => hn.2 rfl, if_pos rfl]
    exact handleVersion_good h hp hc payload
  by_cases hack : c = Cmd.verack
  · subst hack
    rw [handle]
    by_cases hv : p.gotVersion = true
    · rw [if_neg fun hn => by simp [hv] at hn, if_neg hver, if_pos rfl]
      exact handleVerack_good h hp hv
    · rw [if_pos ⟨by simp [hv], hver⟩]
      exact h.quiet (.misbehave s p false)
  · exact h.quiet (handle_quiet h.distinct (List.mem_map_of_mem hp) ⟨hver, hack⟩ payload)

end P2P

end QuantCore
