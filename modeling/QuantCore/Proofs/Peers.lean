import QuantCore.Net.EventLoop
import QuantCore.Proofs.Callbacks

/-!
# What a handler leaves alone

Most of what the engine does changes neither who its peers are nor how far their
handshakes have come: `Quiet` says so, and that what is in flight still is with
peers that can be waited for. It holds of every handler but those of the two
messages of the handshake; it also says that such a handler sends nothing but
ordinary messages, and nothing to a peer that has not introduced itself or is
hung up on.

Under the engine there is the node of `Chain.Mempool`: whatever messages come,
its state is one of those a run of commands leads to.
-/

namespace QuantCore

open Maps

/-- What of a peer only the handshake changes. -/
structure PeerKey where
  id : UInt64
  addr : NetAddr
  inbound : Bool
  manual : Bool
  connecting : Bool
  gotVersion : Bool
  gotVerack : Bool
  ver : VersionMsg

def Peer.key (p : Peer) : PeerKey where
  id := p.id
  addr := p.addr
  inbound := p.inbound
  manual := p.manual
  connecting := p.connecting
  gotVersion := p.gotVersion
  gotVerack := p.gotVerack
  ver := p.ver

/-- The messages that are not part of the handshake. -/
def Cmd.Ordinary (c : Cmd) : Prop := c ≠ Cmd.version ∧ c ≠ Cmd.verack

instance (c : Cmd) : Decidable c.Ordinary := inferInstanceAs (Decidable (_ ∧ _))

/-- What a peer becomes without a step of its handshake. -/
structure Peer.Kept (p q : Peer) : Prop where
  key : q.key = p.key
  hung : p.disconnect = true → q.disconnect = true
  said : ∃ l, q.out = p.out ++ l ∧ (∀ m ∈ l, m.1.Ordinary) ∧
    (l ≠ [] → p.gotVersion = true ∧ p.disconnect = false)

namespace Peer.Kept

variable {p q r : Peer}

theorem refl (p : Peer) : p.Kept p :=
  ⟨rfl, fun h => h, [], (List.append_nil _).symm, fun _ h => absurd h List.not_mem_nil,
    fun h => absurd rfl h⟩

/-- The handshake's fields and the messages are as they were. -/
theorem quiet (hk : q.key = p.key) (hd : p.disconnect = true → q.disconnect = true)
    (ho : q.out = p.out) : p.Kept q :=
  ⟨hk, hd, [], by rw [ho, List.append_nil], fun _ h => absurd h List.not_mem_nil,
    fun h => absurd rfl h⟩

theorem gotVersion (h : p.Kept q) : q.gotVersion = p.gotVersion := congrArg PeerKey.gotVersion h.key

theorem id_eq (h : p.Kept q) : q.id = p.id := congrArg PeerKey.id h.key

theorem trans (h : p.Kept q) (h' : q.Kept r) : p.Kept r := by
  obtain ⟨l, hl, hol, hgl⟩ := h.said
  obtain ⟨l', hl', hol', hgl'⟩ := h'.said
  refine ⟨h'.key.trans h.key, fun hd => h'.hung (h.hung hd), l ++ l', ?_, ?_, fun hne => ?_⟩
  · rw [hl', hl, List.append_assoc]
  · intro m hm
    rcases List.mem_append.mp hm with hm | hm
    · exact hol m hm
    · exact hol' m hm
  by_cases hnil : l = []
  · subst hnil
    obtain ⟨hv, hd⟩ := hgl' hne
    refine ⟨h.gotVersion ▸ hv, ?_⟩
    cases hp : p.disconnect with
    | false => rfl
    | true => exact absurd (h.hung hp) (by rw [hd]; exact Bool.false_ne_true)
  · exact hgl hnil

/-- An ordinary message to a peer that has introduced itself. -/
theorem put (hv : p.gotVersion = true) {c : Cmd} (hc : c.Ordinary) (payload : Bytes)
    (breaks : Bool) : p.Kept (p.put c payload breaks) := by
  rw [Peer.put]
  split
  · exact refl p
  · next hd =>
      refine ⟨rfl, fun h => absurd h hd, [(c, payload)], rfl, fun m hm => ?_, fun _ => ⟨hv, ?_⟩⟩
      · rw [List.mem_singleton] at hm
        subst hm
        exact hc
      · exact Bool.eq_false_iff.mpr hd

theorem self (ps : List Peer) : List.Forall₂ Peer.Kept ps ps :=
  List.forall₂_same.mpr fun p _ => refl p

theorem keys {ps qs : List Peer} (h : List.Forall₂ Peer.Kept ps qs) :
    qs.map Peer.key = ps.map Peer.key := by
  induction h with
  | nil => rfl
  | cons hk _ ih => rw [List.map_cons, List.map_cons, ih, hk.key]

end Peer.Kept

namespace P2P

def keys (s : P2P) : List PeerKey := s.peers.map Peer.key

/-- What is in flight is with a peer that has shaken hands and has the whole
chain, and not with one that has refused it; no peer is asked for more than it
should be. -/
structure Downloads (s : P2P) : Prop where
  asked : ∀ b id t, s.inflight.lookup b = some (id, t) →
    (∃ k ∈ s.keys, k.id = id ∧ k.gotVersion = true ∧ k.gotVerack = true ∧
      k.ver.services &&& serviceFull ≠ 0) ∧ (b, id) ∉ s.noWitness
  load : ∀ id, loadOf s.inflight id ≤ maxInflightPerPeer

/-- The ids of the peers are distinct. -/
def Distinct (s : P2P) : Prop := (s.keys.map PeerKey.id).Nodup

/-- The peers of an id have introduced themselves. -/
def Met (s : P2P) (id : UInt64) : Prop := ∀ k ∈ s.keys, k.id = id → k.gotVersion = true

variable [Crypto] {net : P2PConfig}

/-- The node is in one of the states that commands lead to. -/
def Running (net : P2PConfig) (s : P2P) : Prop :=
  FullNode.Reached net.chain (fun _ _ => True) s.node

omit [Crypto] in
/-- Nothing that the invariant looks at is touched. -/
structure Same (s t : P2P) : Prop where
  peers : t.peers = s.peers
  nextPeerId : t.nextPeerId = s.nextPeerId
  inflight : t.inflight = s.inflight
  noWitness : t.noWitness = s.noWitness
  node : t.node = s.node

/-- A step that changes no handshake. -/
structure Quiet (net : P2PConfig) (s t : P2P) : Prop where
  peers : List.Forall₂ Peer.Kept s.peers t.peers
  nextPeerId : t.nextPeerId = s.nextPeerId
  downloads : s.Downloads → t.Downloads
  node : s.Running net → t.Running net

namespace Quiet

variable {s t u : P2P}

theorem refl (s : P2P) : Quiet net s s :=
  ⟨Peer.Kept.self s.peers, rfl, fun h => h, fun h => h⟩

theorem trans (h : Quiet net s t) (h' : Quiet net t u) : Quiet net s u := by
  refine ⟨?_, h'.nextPeerId.trans h.nextPeerId, fun hd => h'.downloads (h.downloads hd),
    fun hn => h'.node (h.node hn)⟩
  have hp := h.peers
  have hp' := h'.peers
  generalize s.peers = ps at hp
  generalize t.peers = qs at hp hp'
  generalize u.peers = rs at hp'
  induction hp generalizing rs with
  | nil =>
      cases hp'
      exact .nil
  | cons hpq _ ih =>
      cases hp' with
      | cons hqr hrest => exact .cons (hpq.trans hqr) (ih _ hrest)

theorem keys (h : Quiet net s t) : t.keys = s.keys := Peer.Kept.keys h.peers

theorem met {id : UInt64} (h : Quiet net s t) (hm : s.Met id) : t.Met id := by
  rw [P2P.Met, h.keys]
  exact hm

theorem distinct (h : Quiet net s t) (hd : s.Distinct) : t.Distinct := by
  rw [P2P.Distinct, h.keys]
  exact hd

/-- A loop of quiet steps. -/
theorem foldl {α : Type} {f : P2P → α → P2P} {l : List α}
    (hf : ∀ t a, a ∈ l → Quiet net s t → Quiet net t (f t a)) : Quiet net s (l.foldl f s) := by
  refine List.foldlRecOn l f (motive := fun t => Quiet net s t) (refl s) fun t ht a ha => ?_
  exact ht.trans (hf t a ha ht)

theorem same (h : Same s t) : Quiet net s t := by
  refine ⟨?_, h.nextPeerId, fun hd => ⟨?_, ?_⟩, fun hn => ?_⟩
  · rw [h.peers]
    exact Peer.Kept.self s.peers
  · rw [h.inflight, h.noWitness, P2P.keys, h.peers]
    exact hd.asked
  · rw [h.inflight]
    exact hd.load
  · rw [Running, h.node]
    exact hn

theorem modify {id : UInt64} {f : Peer → Peer} (hf : ∀ p ∈ s.peers, p.id = id → p.Kept (f p)) :
    Quiet net s (s.modifyPeer id f) := by
  have hp : List.Forall₂ Peer.Kept s.peers (s.modifyPeer id f).peers := by
    refine List.forall₂_map_right_iff.mpr (List.forall₂_same.mpr fun p hp => ?_)
    split
    · next h => exact hf p hp h
    · exact Peer.Kept.refl p
  refine ⟨hp, rfl, fun h => ⟨?_, h.load⟩, fun h => h⟩
  rw [P2P.keys, Peer.Kept.keys hp]
  exact h.asked

end Quiet

/-! ## The node under the engine -/

/-- `on_added` changes nothing for the mempool. -/
theorem readdAll_fst (cfg : Config) (cs : Chainstate) (m : Mempool) (q : Queues) :
    (readdAll cfg cs m q).1 = m.onTip cfg cs := by
  simp only [readdAll, Mempool.onTip]
  generalize (if m.dirty then m.rebuild cfg cs else m) = m₀
  generalize ({ m₀ with readd := [] } : Mempool) = m₁
  induction m₀.readd generalizing m₁ q with
  | nil => rfl
  | cons tx rest ih =>
      rw [List.foldl_cons, List.foldl_cons]
      rcases m₁.accept cfg cs tx with ⟨m₂, e | u⟩
      · exact ih q m₂
      · exact ih (Queues.added q tx.txid) m₂

theorem listeners_related (cfg : Config) :
    (listeners cfg).Related cfg (Mempool.callbacks cfg) fun _ x m => x.1 = m where
  quiet h _ _ := h
  connect _ h := congrArg (Mempool.onConnect _) h
  disconnect h := congrArg (Mempool.onDisconnect cfg _ _) h

/-- The chain and the mempool fare as if nobody else listened. -/
theorem thenActivate_node (s : P2P) (r : Chainstate × Except String Bool) :
    (s.thenActivate net r).node = FullNode.thenActivate net.chain s.node.mp r := by
  obtain ⟨cs, e | b⟩ := r
  · rfl
  cases b with
  | false => rfl
  | true =>
      have hsame : ((s.node.mp, s.queues) : Mempool × Queues).1 = s.node.mp := rfl
      obtain ⟨cs', x, m, h₁, h₂, hx⟩ := Chainstate.activateLoopWith_related
        (listeners_related net.chain) Chainstate.activateGuard (s := cs) hsame
      simp only [thenActivate, FullNode.thenActivate, Chainstate.activateWith, h₁, h₂]
      subst hx
      split
      · exact congrArg (FullNode.mk _) (readdAll_fst _ _ _ _)
      · rfl

theorem thenActivate_frame (net : P2PConfig) (s : P2P) (r : Chainstate × Except String Bool) :
    (s.thenActivate net r).peers = s.peers ∧ (s.thenActivate net r).nextPeerId = s.nextPeerId ∧
      (s.thenActivate net r).inflight = s.inflight ∧
      (s.thenActivate net r).noWitness = s.noWitness := by
  obtain ⟨cs, e | b⟩ := r
  · exact ⟨rfl, rfl, rfl, rfl⟩
  cases b with
  | false => exact ⟨rfl, rfl, rfl, rfl⟩
  | true => exact ⟨rfl, rfl, rfl, rfl⟩

namespace Quiet

variable {s t : P2P}

/-- The node takes a command, and the rest is left alone. -/
theorem command {c : NodeCmd} (hp : t.peers = s.peers) (hn : t.nextPeerId = s.nextPeerId)
    (hi : t.inflight = s.inflight) (hw : t.noWitness = s.noWitness)
    (hc : s.node.run net.chain c = .ok t.node) : Quiet net s t := by
  have hq : Quiet net s { t with node := s.node } := same ⟨hp, hn, hi, hw, rfl⟩
  exact ⟨hq.peers, hn, fun h => ⟨(hq.downloads h).asked, (hq.downloads h).load⟩,
    fun h => .run h trivial hc⟩

theorem thenActivate {c : NodeCmd} {r : Chainstate × Except String Bool}
    (hc : s.node.run net.chain c = .ok (FullNode.thenActivate net.chain s.node.mp r)) :
    Quiet net s (s.thenActivate net r) := by
  obtain ⟨hp, hn, hi, hw⟩ := thenActivate_frame net s r
  refine command (c := c) hp hn hi hw ?_
  rw [thenActivate_node]
  exact hc

theorem acceptTx (s : P2P) (tx : Transaction) : Quiet net s (s.acceptTx net tx).1 := by
  have hr : s.node.run net.chain (.accept tx) =
      .ok ⟨s.node.cs, (s.node.mp.accept net.chain s.node.cs tx).1⟩ := rfl
  rw [P2P.acceptTx]
  split
  · next m u hm =>
      rw [hm] at hr
      exact command rfl rfl rfl rfl hr
  · next m e hm =>
      rw [hm] at hr
      exact command rfl rfl rfl rfl hr

/-! ## Small steps -/

theorem asked (s : P2P) : Quiet net s s.asked := same ⟨rfl, rfl, rfl, rfl, rfl⟩

theorem hangUp (s : P2P) (id : UInt64) : Quiet net s (s.hangUp id) :=
  modify fun _ _ _ => Peer.Kept.quiet rfl (fun _ => rfl) rfl

theorem markKnown (s : P2P) (id : UInt64) (h : Hash256) : Quiet net s (s.markKnown id h) :=
  modify fun _ _ _ => Peer.Kept.quiet rfl (fun hd => hd) rfl

theorem send {id : UInt64} (hm : s.Met id) {c : Cmd} (hc : c.Ordinary) (payload : Bytes) :
    Quiet net s (s.send net id c payload) :=
  (asked s).trans <| modify fun p hp hid =>
    Peer.Kept.put (hm p.key (List.mem_map_of_mem hp) hid) hc payload _

theorem misbehave (s : P2P) (p : Peer) (ban : Bool) : Quiet net s (s.misbehave net p ban) := by
  refine (hangUp s p.id).trans ?_
  rw [P2P.misbehave]
  split
  · exact same ⟨rfl, rfl, rfl, rfl, rfl⟩
  · exact refl _

theorem sendGetheaders {id : UInt64} (hm : s.Met id) :
    Quiet net s (s.sendGetheaders net id) :=
  (send hm (by decide) _).trans <| modify fun _ _ _ =>
    Peer.Kept.quiet rfl (fun hd => hd) rfl

end Quiet

omit [Crypto] in
theorem addAddr_same (s : P2P) (a : NetAddr) (manual : Bool) : Same s (s.addAddr a manual) := by
  rw [addAddr]
  split
  · exact ⟨rfl, rfl, rfl, rfl, rfl⟩
  · split <;> exact ⟨rfl, rfl, rfl, rfl, rfl⟩

omit [Crypto] in
theorem learnedExternal_same (s : P2P) (a : NetAddr) : Same s (s.learnedExternal a) := by
  rw [learnedExternal]
  split
  · exact ⟨rfl, rfl, rfl, rfl, rfl⟩
  · simp only
    split_ifs <;> exact ⟨rfl, rfl, rfl, rfl, rfl⟩

end P2P

end QuantCore
