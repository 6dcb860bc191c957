import QuantCore.Proofs.Downloads

/-!
# Every handler but the handshake's

A handler of an ordinary message leaves the peers and their handshakes alone,
also where it throws: the items in front of the one it could not read had their
effect, and each of these effects is quiet.
-/

namespace QuantCore

open Codec Maps

namespace P2P

/-- What every action keeps, a loop over a list of items keeps, whether or not
it comes to the end. -/
theorem eachItem_keeps {α σ : Type} (max : Nat) (r : ByteReader α) (act : σ → α → σ)
    {P : σ → Prop} (hact : ∀ s a, P s → P (act s a)) {s : σ} (h : P s) (payload : Bytes) :
    P (eachItem max r act s payload).1 := by
  rw [eachItem]
  split
  · exact h
  next n bs _ =>
  have hk := readEach_keeps (r := r) hact h n.toNat bs
  split
  · next he =>
      rw [he] at hk
      exact hk
  · next he =>
      rw [he] at hk
      exact hk

variable [Crypto] {net : P2PConfig} {s : P2P} {p : Peer}

/-! ## Blocks that are not in flight any more -/

theorem Quiet.drop (s : P2P) (b : Hash256) :
    Quiet net s { s with inflight := s.inflight.erase b } where
  peers := Peer.Kept.self s.peers
  nextPeerId := rfl
  node h := h
  downloads h := by
    refine ⟨fun b' id t hl => ?_, fun id => (loadOf_erase_le _ _ _).trans (h.load id)⟩
    replace hl : (s.inflight.erase b).lookup b' = some (id, t) := hl
    rw [lookup_erase_ite] at hl
    split at hl
    · cases hl
    · exact h.asked b' id t hl

/-- A peer that refuses a block that nobody is waiting for. -/
theorem Quiet.refuse {b : Hash256} (hb : b ∉ s.inflight) (id : UInt64) :
    Quiet net s { s with noWitness := insert (b, id) s.noWitness } where
  peers := Peer.Kept.self s.peers
  nextPeerId := rfl
  node h := h
  downloads h := by
    refine ⟨fun b' id' t hl => ?_, h.load⟩
    obtain ⟨hk, hw⟩ := h.asked b' id' t hl
    refine ⟨hk, fun hm => ?_⟩
    rcases Finset.mem_insert.mp hm with he | hm
    · obtain ⟨rfl, -⟩ := Prod.mk.inj he
      exact hb (mem_iff_exists.mpr ⟨_, hl⟩)
    · exact hw hm

theorem refused_quiet (p : Peer) (s : P2P) (i : InvItem) : Quiet net s (refused p s i) := by
  rw [refused]
  split
  · split
    · refine (Quiet.drop s i.hash).trans (Quiet.refuse ?_ p.id)
      exact AList.mem_erase.not.mpr fun h => h.1 rfl
    · exact .refl s
  · exact .refl s

/-! ## Addresses and announcements -/

theorem handleAddr_quiet (s : P2P) (p : Peer) (payload : Bytes) :
    Quiet net s (s.handleAddr p payload).1 := by
  refine eachItem_keeps _ _ _ (P := Quiet net s) (fun t a ht => ht.trans ?_) (.refl s) payload
  rw [takeAddr]
  split
  · exact .same (addAddr_same t a false)
  · exact .refl t

theorem takeInv_quiet (id : UInt64) (x : InvState) (i : InvItem) :
    Quiet net x.p2p (takeInv id x i).p2p := by
  rw [takeInv]
  split_ifs <;> exact .markKnown x.p2p id i.hash

theorem handleInv_quiet (hm : s.Met p.id) (payload : Bytes) :
    Quiet net s (s.handleInv net p payload).1 := by
  have hk := eachItem_keeps maxInvItems InvItem.read (takeInv p.id)
    (P := fun x => Quiet net s x.p2p) (fun x i hx => hx.trans (takeInv_quiet p.id x i))
    (s := { p2p := s }) (.refl s) payload
  rw [handleInv]
  split
  · next x e he =>
      rw [he] at hk
      exact hk
  next x he =>
  rw [he] at hk
  have hw : Quiet net s (if x.want.isEmpty then x.p2p
      else x.p2p.send net p.id Cmd.getData (writeInv x.want)) := by
    split
    · exact hk
    · exact hk.trans (.send (hk.met hm) (by decide) _)
  simp only
  split
  · exact hw.trans (.sendGetheaders (hw.met hm))
  · exact hw

theorem serveItem_quiet {x : P2P × List InvItem} (hm : x.1.Met p.id) (i : InvItem) :
    Quiet net x.1 (serveItem net p x i).1 := by
  rw [serveItem]
  split
  · split
    · exact .send hm (by decide) _
    · exact .refl x.1
  · split
    · split
      · exact .send hm (by decide) _
      · exact .refl x.1
    · exact .refl x.1

theorem handleGetData_quiet (hm : s.Met p.id) (payload : Bytes) :
    Quiet net s (s.handleGetData net p payload).1 := by
  have hk := eachItem_keeps maxInvItems InvItem.read (serveItem net p)
    (P := fun x => Quiet net s x.1) (fun x i hx => hx.trans (serveItem_quiet (hx.met hm) i))
    (s := (s, [])) (.refl s) payload
  rw [handleGetData]
  split
  · next t l e he =>
      rw [he] at hk
      exact hk
  · next t missing he =>
      rw [he] at hk
      simp only
      split
      · exact hk
      · exact hk.trans (.send (hk.met hm) (by decide) _)

theorem handleNotFound_quiet (s : P2P) (p : Peer) (payload : Bytes) :
    Quiet net s (s.handleNotFound p payload).1 :=
  eachItem_keeps _ _ _ (P := Quiet net s) (fun t i ht => ht.trans (refused_quiet p t i)) (.refl s)
    payload

/-! ## Headers and blocks -/

theorem takeHeaders_quiet (net : P2PConfig) (id : UInt64) (s : P2P) (hs : List BlockHeader) (last : Option Hash256) :
    Quiet net s (takeHeaders net id s hs last).1 := by
  induction hs generalizing s last with
  | nil => exact .refl s
  | cons h hs ih =>
      have hc : ∀ cs, (s.node.cs.acceptHeader net.chain h).1 = cs →
          Quiet net s { s with node := ⟨cs, s.node.mp⟩ } := fun cs hcs =>
        .command (c := .header h) rfl rfl rfl rfl (by rw [← hcs]; rfl)
      rw [takeHeaders]
      split
      · next cs he => exact hc cs (by rw [he])
      · next cs why he => exact hc cs (by rw [he])
      · next cs b he =>
          exact (hc cs (by rw [he])).trans ((Quiet.markKnown _ id b).trans (ih _ _))
      · next cs b he =>
          exact (hc cs (by rw [he])).trans ((Quiet.markKnown _ id b).trans (ih _ _))

theorem raiseHeight_quiet (s : P2P) (id : UInt64) (last : Option Hash256) :
    Quiet net s (s.raiseHeight id last) := by
  cases last with
  | none => exact .refl s
  | some b => exact .modify fun _ _ _ => Peer.Kept.quiet rfl (fun hd => hd) rfl

theorem handleHeaders_quiet (hd : s.Distinct) (hm : s.Met p.id) (payload : Bytes) :
    Quiet net s (s.handleHeaders net p payload).1 := by
  rw [handleHeaders]
  split
  · exact .refl s
  next hs rest _ =>
  have ht := takeHeaders_quiet net p.id s hs none
  split
  · next t l he =>
      rw [he] at ht
      exact ht.trans (.misbehave t p true)
  next t last e _ he =>
  rw [he] at ht
  have hr := ht.trans (raiseHeight_quiet t p.id last)
  have hg : Quiet net s (if e = .orphan ∨ hs.length = maxHeadersPerMsg then
      (t.raiseHeight p.id last).sendGetheaders net p.id else t.raiseHeight p.id last) := by
    split
    · exact hr.trans (.sendGetheaders (hr.met hm))
    · exact hr
  exact hg.trans (requestBlocks_quiet (hg.distinct hd))

theorem afterBlock_quiet (hd : s.Distinct) (hm : s.Met p.id) {h : Hash256}
    (hn : h ∉ s.inflight) (r : Except String Bool) :
    Quiet net s (s.afterBlock net p h r).1 := by
  cases r with
  | ok b => exact requestBlocks_quiet hd
  | error why =>
      rw [afterBlock]
      split_ifs
      · exact .refuse hn p.id
      · exact .sendGetheaders hm
      · exact .refl s
      · exact .misbehave s p true

theorem handleBlock_quiet (hd : s.Distinct) (hm : s.Met p.id) (payload : Bytes) :
    Quiet net s (s.handleBlock net p payload).1 := by
  rw [handleBlock]
  split
  · exact .refl s
  next b w rest _ =>
  have hdrop : Quiet net s { s.markKnown p.id b.header.hash with
      inflight := s.inflight.erase b.header.hash } :=
    (Quiet.markKnown s p.id b.header.hash).trans (.drop _ b.header.hash)
  have ha := hdrop.trans (.thenActivate (c := .block b w) rfl)
  refine ha.trans (afterBlock_quiet (ha.distinct hd) (ha.met hm) ?_ _)
  rw [(thenActivate_frame net _ _).2.2.1]
  exact AList.mem_erase.not.mpr fun h => h.1 rfl

/-! ## Transactions, coins and snapshots -/

theorem handleTx_quiet (hm : s.Met p.id) (payload : Bytes) :
    Quiet net s (s.handleTx net p payload).1 := by
  rw [handleTx]
  split
  · exact .refl s
  next tx rest _ =>
  have hmark : Quiet net s (s.markKnown p.id tx.txid) := .markKnown s p.id tx.txid
  have ha := hmark.trans (.acceptTx _ tx)
  split
  · next t he =>
      rw [he] at ha
      exact ha
  · next t why he =>
      rw [he] at ha
      split
      · exact ha.trans (.send (ha.met hm) (by decide) _)
      · exact ha

theorem handleGetUtxos_quiet (hm : s.Met p.id) (payload : Bytes) :
    Quiet net s (s.handleGetUtxos net p payload).1 := by
  rw [handleGetUtxos]
  split
  · exact .refl s
  · exact .send hm (by decide) _

theorem handleGetSnapshot_quiet (hm : s.Met p.id) (payload : Bytes) :
    Quiet net s (s.handleGetSnapshot net p payload).1 := by
  rw [handleGetSnapshot]
  split
  · exact .refl s
  next v reply _ =>
  have hv : Quiet net s { s with serving := v } := .same ⟨rfl, rfl, rfl, rfl, rfl⟩
  exact hv.trans (.send (hv.met hm) (by decide) _)

theorem handleSnapshot_quiet (hm : s.Met p.id) (payload : Bytes) :
    Quiet net s (s.handleSnapshot net p payload).1 := by
  have hf : ∀ f, Quiet net s { s with snap := f } := fun f => .same ⟨rfl, rfl, rfl, rfl, rfl⟩
  rw [handleSnapshot]
  split
  · exact .refl s
  · next f _ => exact hf f
  · next f req _ => exact (hf f).trans (.send ((hf f).met hm) (by decide) _)
  next f x _ =>
  have ha : Quiet net s (({ s with snap := f } : P2P).thenActivate net
      (s.node.cs.receiveSnapshot net.chain x)) :=
    (hf f).trans (.thenActivate (c := .snapshot x) rfl)
  simp only
  split
  · exact ha
  · exact ha.trans (.misbehave _ p true)

/-! ## All of them -/

theorem Quiet.ite {c : Prop} [Decidable c] {x y : Handled} (hx : c → Quiet net s x.1)
    (hy : ¬ c → Quiet net s y.1) : Quiet net s (if c then x else y).1 := by
  split
  · next h => exact hx h
  · next h => exact hy h

/-- Whatever an ordinary message makes of the engine is quiet. -/
theorem handle_quiet (hd : s.Distinct) (hp : p.key ∈ s.keys) {c : Cmd} (hc : c.Ordinary)
    (payload : Bytes) : Quiet net s (s.handle net p c payload).1 := by
  rw [handle]
  refine .ite (fun _ => .misbehave s p false) fun hv => ?_
  have hm : s.Met p.id := by
    intro k hk hid
    rw [List.inj_on_of_nodup_map hd hk hp hid]
    cases hg : p.gotVersion with
    | true => exact hg
    | false => exact absurd ⟨by rw [hg]; rfl, hc.1⟩ hv
  refine .ite (fun h => absurd h hc.1) fun _ => ?_
  refine .ite (fun h => absurd h hc.2) fun _ => ?_
  refine .ite (fun _ => .send hm (by decide) payload) fun _ => ?_
  refine .ite (fun _ => ?_) fun _ => ?_
  · rw [handlePong]
    split <;> exact .refl s
  refine .ite (fun _ => .send hm (by decide) _) fun _ => ?_
  refine .ite (fun _ => handleAddr_quiet s p payload) fun _ => ?_
  refine .ite (fun _ => handleInv_quiet hm payload) fun _ => ?_
  refine .ite (fun _ => handleGetData_quiet hm payload) fun _ => ?_
  refine .ite (fun _ => handleNotFound_quiet s p payload) fun _ => ?_
  refine .ite (fun _ => ?_) fun _ => ?_
  · split
    · exact .refl s
    · exact .send hm (by decide) _
  refine .ite (fun _ => handleHeaders_quiet hd hm payload) fun _ => ?_
  refine .ite (fun _ => handleBlock_quiet hd hm payload) fun _ => ?_
  refine .ite (fun _ => handleTx_quiet hm payload) fun _ => ?_
  refine .ite (fun _ => handleGetUtxos_quiet hm payload) fun _ => ?_
  refine .ite (fun _ => handleGetSnapshot_quiet hm payload) fun _ => ?_
  exact .ite (fun _ => handleSnapshot_quiet hm payload) fun _ => .refl s

end P2P

end QuantCore
