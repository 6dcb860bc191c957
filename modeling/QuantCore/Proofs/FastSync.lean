import QuantCore.Net.FastSync
import QuantCore.Proofs.Codec
import QuantCore.Proofs.Script

/-!
# A snapshot's download

A chunk that is accepted goes to the end of what there is, so a download makes no
more requests than the file has bytes, and none later than a minute after it last
grew — if every chunk has a byte in it, and the node's headers keep up with what
its peers claim, for otherwise the download is not looked at. A peer that serves
a file has it put together as it is.
-/

namespace QuantCore

open Codec ByteReader

/-! ## The messages -/

theorem decodes_getSnapshot (bh : Hash256) (off : Nat) :
    Decodes readGetSnapshot (writeGetSnapshot bh off) (bh, UInt64.ofNat off) :=
  (decodes_hash bh).bind (decodes_varint _).bind_pure

theorem decodes_snapshotPart {x : SnapshotPart} (h : x.chunk.length ≤ snapshotChunk) :
    Decodes SnapshotPart.read x.write x := by
  rw [SnapshotPart.write]
  simp only [List.append_assoc]
  exact (decodes_hash _).bind ((decodes_varint _).bind ((decodes_varint _).bind
    (decodes_bytes h).bind_pure))

/-! ## One chunk -/

namespace FastSync

variable {f f' : FastSync} {id : UInt64} {x : SnapshotPart} {now : Int} {a : SyncAction}

/-- The chunk is from the peer that was asked, and what comes next of the file. -/
structure Accepts (f : FastSync) (id : UInt64) (x : SnapshotPart) : Prop where
  peer : f.peer = some id
  block : x.block = f.block
  pos : x.total ≠ 0
  small : x.total.toNat ≤ 4 * 2 ^ 30
  off : x.off.toNat = f.buf.length
  total : f.total = 0 ∨ x.total = f.total

/-- What can come of a chunk. -/
theorem takePart_cases (f : FastSync) (id : UInt64) (x : SnapshotPart) (now : Int) :
    (¬ (f.peer = some id ∧ x.block = f.block) ∧ f.takePart id x now = (f, .nothing)) ∨
    (f.peer = some id ∧ ¬ f.Accepts id x ∧ f.takePart id x now = (f.refuse id, .nothing)) ∨
    (f.Accepts id x ∧ (f.append x now).buf.length < x.total.toNat ∧ f.takePart id x now =
      (f.append x now, .request (writeGetSnapshot x.block (f.append x now).buf.length))) ∨
    (f.Accepts id x ∧ x.total.toNat ≤ (f.append x now).buf.length ∧ f.takePart id x now =
      ((f.append x now).reset, .load (f.append x now).buf)) := by
  rw [takePart]
  split
  · next h => exact .inl ⟨fun hand => h.elim (fun hp => hp hand.1) fun hb => hb hand.2, rfl⟩
  · next h =>
      rw [not_or, not_not, not_not] at h
      split
      · next hbad =>
          refine .inr (.inl ⟨h.1, fun ha => ?_, rfl⟩)
          rcases hbad with hzero | hlarge | hoff | ⟨hset, htotal⟩
          · exact ha.pos hzero
          · exact absurd ha.small (Nat.not_le.mpr hlarge)
          · exact hoff ha.off
          · exact ha.total.elim hset htotal
      · next hgood =>
          simp only [not_or, not_and, not_not, Nat.not_lt] at hgood
          obtain ⟨hpos, hsmall, hoff, htotal⟩ := hgood
          have ha : f.Accepts id x := ⟨h.1, h.2, hpos, hsmall, hoff,
            or_iff_not_imp_left.mpr htotal⟩
          simp only []
          split
          · next hlt => exact .inr (.inr (.inl ⟨ha, hlt, rfl⟩))
          · next hge => exact .inr (.inr (.inr ⟨ha, Nat.le_of_not_lt hge, rfl⟩))

variable [Crypto]

/-- The node's headers are behind what a peer claims, so `try_fast_sync` does not
look at the download. -/
def Lags (s : Chainstate) (peers : List SyncPeer) : Prop :=
  ∀ best, s.bestHeader = some best →
    ((s.entry best).height : Int) + 10 < maxPeerHeight peers

omit [Crypto] in
theorem choose_cases (f : FastSync) (target : Hash256) (peers : List SyncPeer) (now : Int) :
    f.choose target peers now = (f, false, none) ∨
      ∃ id, f.choose target peers now =
        ({ f with peer := some id, block := target, since := now }, true,
          some (id, writeGetSnapshot target 0)) := by
  rw [choose]
  cases peers.find? f.usable with
  | none => exact .inl rfl
  | some p => exact .inr ⟨p.id, rfl⟩

/-- What can come of a look at the download. -/
theorem tryFastSync_cases (cfg : Config) (s : Chainstate) (peers : List SyncPeer) (now : Int)
    (f : FastSync) :
    (∃ b, f.tryFastSync cfg s peers now = (f, b, none) ∧
      (b = true → f.peer.isSome = true ∧ (Lags s peers ∨ now - f.since < 60000))) ∨
    f.tryFastSync cfg s peers now = (f.giveUp, false, none) ∨
    ∃ id target, f.tryFastSync cfg s peers now =
      ({ f.giveUp with peer := some id, block := target, since := now }, true,
        some (id, writeGetSnapshot target 0)) := by
  rw [tryFastSync]
  split
  · exact .inl ⟨false, rfl, fun h => by cases h⟩
  · split
    · next hnone =>
        refine .inl ⟨_, rfl, fun hp => ⟨hp, .inl fun best hbest => ?_⟩⟩
        rw [hnone] at hbest
        cases hbest
    · next best hbest =>
        split
        · next hlag =>
            refine .inl ⟨_, rfl, fun hp => ⟨hp, .inl fun best' hbest' => ?_⟩⟩
            rw [hbest] at hbest'
            cases hbest'
            exact hlag
        · split
          · exact .inl ⟨false, rfl, fun h => by cases h⟩
          · next target _ =>
              split
              · next hfresh => exact .inl ⟨true, rfl, fun _ => ⟨hfresh.1, .inr hfresh.2⟩⟩
              · rcases choose_cases f.giveUp target peers now with h | ⟨id, h⟩
                · exact .inr (.inl h)
                · exact .inr (.inr ⟨id, target, h⟩)

/-! ## Any run -/

/-- What reaches the download: a message from a peer, and a look at it. -/
inductive Event
  | message (id : UInt64) (now : Int) (payload : Bytes)
  | poll (s : Chainstate) (peers : List SyncPeer) (now : Int)

/-- A chunk that is accepted is not empty, and while a download is in progress the
headers keep up. -/
def Fair (f : FastSync) : Event → Prop
  | .message id _ payload =>
      ∀ x rest, SnapshotPart.read payload = .ok (x, rest) → f.Accepts id x → x.chunk ≠ []
  | .poll s peers _ => f.peer.isSome = true → ¬ Lags s peers

/-- The requests of an action. -/
def requests : SyncAction → List Bytes
  | .request r => [r]
  | _ => []

/-- The states of the members, with the requests the download in progress has made
after the first and the time it last grew or began. A message that does not parse
changes nothing. -/
inductive Downloads (cfg : Config) (ok : FastSync → Event → Prop) :
    Nat → Int → FastSync → Prop
  | start : Downloads cfg ok 0 0 {}
  | message {n : Nat} {t now : Int} {f f' : FastSync} {id : UInt64} {payload : Bytes}
      {a : SyncAction} (h : Downloads cfg ok n t f) (hok : ok f (.message id now payload))
      (hr : f.receive id now payload = .ok (f', a)) :
      Downloads cfg ok (n + (requests a).length)
        (if f.buf.length < f'.buf.length then now else t) f'
  | poll {n : Nat} {t now : Int} {f f' : FastSync} {s : Chainstate} {peers : List SyncPeer}
      {b : Bool} (h : Downloads cfg ok n t f) (hok : ok f (.poll s peers now))
      (hr : f.tryFastSync cfg s peers now = (f', b, none)) : Downloads cfg ok n t f'
  | choose {n : Nat} {t now : Int} {f f' : FastSync} {s : Chainstate} {peers : List SyncPeer}
      {b : Bool} {r : UInt64 × Bytes} (h : Downloads cfg ok n t f)
      (hok : ok f (.poll s peers now)) (hr : f.tryFastSync cfg s peers now = (f', b, some r)) :
      Downloads cfg ok 0 now f'

/-- Nothing is left of a download that is over, and one in progress has not reached
the end. -/
structure Clear (f : FastSync) : Prop where
  idle : f.peer = none → f.buf = [] ∧ f.total = 0
  short : f.buf = [] ∧ f.total = 0 ∨ f.buf.length < f.total.toNat

omit [Crypto] in
theorem clear_reset (f : FastSync) : f.reset.Clear := ⟨fun _ => ⟨rfl, rfl⟩, .inl ⟨rfl, rfl⟩⟩

omit [Crypto] in
theorem giveUp_peer (f : FastSync) : f.giveUp.peer = none := by
  rw [giveUp]
  cases hp : f.peer with
  | none => exact hp
  | some id => rfl

omit [Crypto] in
theorem Clear.giveUp (h : f.Clear) : f.giveUp.Clear ∧ f.giveUp.buf = [] ∧ f.giveUp.total = 0 := by
  rw [FastSync.giveUp]
  cases hp : f.peer with
  | none => exact ⟨h, h.idle hp⟩
  | some id => exact ⟨⟨fun _ => ⟨rfl, rfl⟩, .inl ⟨rfl, rfl⟩⟩, rfl, rfl⟩

omit [Crypto] in
/-- A message was read before anything else. -/
theorem receive_ok {payload : Bytes} (h : f.receive id now payload = .ok (f', a)) :
    ∃ x rest, SnapshotPart.read payload = .ok (x, rest) ∧ f.takePart id x now = (f', a) := by
  rw [receive] at h
  cases hread : SnapshotPart.read payload with
  | error e =>
      rw [hread] at h
      cases h
  | ok r =>
      rw [hread] at h
      exact ⟨r.1, r.2, rfl, Except.ok.inj h⟩

omit [Crypto] in
/-- A chunk that is accepted and is not the last. -/
theorem Accepts.takePart (h : f.Accepts id x)
    (hlt : (f.append x now).buf.length < x.total.toNat) : f.takePart id x now =
      (f.append x now, .request (writeGetSnapshot x.block (f.append x now).buf.length)) := by
  rcases f.takePart_cases id x now with ⟨hno, -⟩ | ⟨-, hno, -⟩ | ⟨-, -, he⟩ | ⟨-, hge, -⟩
  · exact absurd ⟨h.peer, h.block⟩ hno
  · exact absurd h hno
  · exact he
  · exact absurd hlt (Nat.not_lt.mpr hge)

omit [Crypto] in
theorem receive_write (f : FastSync) (id : UInt64) (now : Int)
    (h : x.chunk.length ≤ snapshotChunk) :
    f.receive id now x.write = .ok (f.takePart id x now) := by
  rw [receive, (decodes_snapshotPart h).run]
  rfl

omit [Crypto] in
theorem takePart_block (ht : f.takePart id x now = (f', a)) : f'.block = f.block := by
  rcases f.takePart_cases id x now with ⟨-, he⟩ | ⟨-, -, he⟩ | ⟨-, -, he⟩ | ⟨-, -, he⟩
  all_goals
    rw [he] at ht
    cases ht
    rfl

omit [Crypto] in
/-- Nobody but the peer that was asked has a say. -/
theorem takePart_foreign (h : f.peer ≠ some id) : f.takePart id x now = (f, .nothing) := by
  rw [takePart, if_pos (.inl h)]

omit [Crypto] in
theorem Clear.takePart (h : f.Clear) (ht : f.takePart id x now = (f', a)) : f'.Clear := by
  rcases f.takePart_cases id x now with ⟨-, he⟩ | ⟨-, -, he⟩ | ⟨ha, hlt, he⟩ | ⟨-, -, he⟩
  all_goals
    rw [he] at ht
    cases ht
  · exact h
  · exact ⟨fun _ => ⟨rfl, rfl⟩, .inl ⟨rfl, rfl⟩⟩
  · refine ⟨fun hp => ?_, .inr hlt⟩
    have hp : f.peer = none := hp
    rw [ha.peer] at hp
    cases hp
  · exact clear_reset _

theorem Clear.poll {cfg : Config} {s : Chainstate} {peers : List SyncPeer} {b : Bool}
    {r : Option (UInt64 × Bytes)} (h : f.Clear)
    (hr : f.tryFastSync cfg s peers now = (f', b, r)) : f'.Clear := by
  obtain ⟨hc, hbuf, htotal⟩ := h.giveUp
  rcases tryFastSync_cases cfg s peers now f with ⟨c, he, -⟩ | he | ⟨id, target, he⟩
  all_goals
    rw [he] at hr
    cases hr
  · exact h
  · exact hc
  · exact ⟨fun hp => absurd hp (Option.some_ne_none id), .inl ⟨hbuf, htotal⟩⟩

variable {cfg : Config} {ok : FastSync → Event → Prop} {n : Nat} {t : Int}

theorem Downloads.clear (h : Downloads cfg ok n t f) : f.Clear := by
  induction h with
  | start => exact ⟨fun _ => ⟨rfl, rfl⟩, .inl ⟨rfl, rfl⟩⟩
  | message h hok hr ih =>
      obtain ⟨x, rest, -, ht⟩ := receive_ok hr
      exact ih.takePart ht
  | poll h hok hr ih => exact ih.poll hr
  | choose h hok hr ih => exact ih.poll hr

/-- Every request was for a chunk that came, and the clock was set when the last
one did. -/
theorem Downloads.asked (h : Downloads cfg Fair n t f) (hp : f.peer.isSome = true) :
    n ≤ f.buf.length ∧ f.since = t := by
  induction h with
  | start => cases hp
  | @message n t now f f' id payload a h hok hr ih =>
      obtain ⟨x, rest, hread, ht⟩ := receive_ok hr
      rcases f.takePart_cases id x now with ⟨-, he⟩ | ⟨-, -, he⟩ | ⟨ha, -, he⟩ | ⟨-, -, he⟩
      all_goals
        rw [he] at ht
        cases ht
      · rw [if_neg (Nat.lt_irrefl _)]
        exact ih hp
      · cases hp
      · obtain ⟨hn, -⟩ := ih (by rw [ha.peer]; rfl)
        have hgrown : f.buf.length < (f.append x now).buf.length := by
          have hpos := List.length_pos_iff.mpr (hok x rest hread ha)
          show f.buf.length < (f.buf ++ x.chunk).length
          rw [List.length_append]
          omega
        rw [if_pos hgrown]
        exact ⟨Nat.le_trans (Nat.succ_le_succ hn) hgrown, rfl⟩
      · cases hp
  | poll h hok hr ih =>
      rename_i n t now f f' s peers b
      rcases tryFastSync_cases cfg s peers now f with ⟨c, he, -⟩ | he | ⟨id, target, he⟩
      all_goals
        rw [he] at hr
        cases hr
      · exact ih hp
      · rw [giveUp_peer] at hp
        cases hp
  | choose h hok hr ih =>
      rename_i n t now f f' s peers b r
      rcases tryFastSync_cases cfg s peers now f with ⟨c, he, -⟩ | he | ⟨id, target, he⟩
      all_goals
        rw [he] at hr
        cases hr
      exact ⟨Nat.zero_le _, rfl⟩

/-! ## A peer that serves one file -/

variable {files : Hash256 → Option Bytes} {p : UInt64} {v v' : SnapshotServer}
  {reqs reps : List Bytes}

omit [Crypto] in
/-- What the server keeps is the file of its block. -/
def Kept (files : Hash256 → Option Bytes) (v : SnapshotServer) : Prop :=
  v.block = 0 ∨ files v.block = some v.file

omit [Crypto] in
theorem Kept.fetch (h : Kept files v) (bh : Hash256) : Kept files (v.fetch files bh) := by
  rw [SnapshotServer.fetch]
  split
  · cases hf : files bh with
    | none => exact .inl rfl
    | some x => exact .inr hf
  · exact h

omit [Crypto] in
theorem Kept.serve (h : Kept files v) {req rep : Bytes}
    (hr : v.serve files req = .ok (v', rep)) : Kept files v' := by
  rw [SnapshotServer.serve] at hr
  cases hread : readGetSnapshot req with
  | error e =>
      rw [hread] at hr
      cases hr
  | ok r =>
      rw [hread] at hr
      cases hr
      exact h.fetch r.1.1

omit [Crypto] in
/-- The chunk of a file from a place on. -/
def chunkAt (bh : Hash256) (file : Bytes) (off : Nat) : SnapshotPart :=
  ⟨bh, UInt64.ofNat file.length, UInt64.ofNat off, (file.drop off).take snapshotChunk⟩

omit [Crypto] in
/-- The chunk that the server sends of the file. -/
theorem Kept.serve_file (h : Kept files v) {bh : Hash256} {file : Bytes} (hbh : bh ≠ 0)
    (hfile : files bh = some file) {off : Nat} (hoff : off ≤ file.length)
    (hsmall : file.length < 2 ^ 64) : v.serve files (writeGetSnapshot bh off) =
      .ok (v.fetch files bh, (chunkAt bh file off).write) := by
  have hkept : (v.fetch files bh).block = bh ∧ (v.fetch files bh).file = file := by
    rw [SnapshotServer.fetch]
    split
    · rw [hfile]
      exact ⟨rfl, rfl⟩
    · next hb =>
        have hb : v.block = bh := not_not.mp hb
        refine ⟨hb, ?_⟩
        rcases h with hzero | hv
        · exact absurd (hb.symm.trans hzero) hbh
        · rw [hb, hfile] at hv
          exact (Option.some.inj hv).symm
  have htoNat : (UInt64.ofNat off).toNat = off := by
    rw [UInt64.toNat_ofNat']
    exact Nat.mod_eq_of_lt (Nat.lt_of_le_of_lt hoff hsmall)
  have hpart : (v.fetch files bh).part bh (UInt64.ofNat off) = chunkAt bh file off := by
    rw [SnapshotServer.part, hkept.1, hkept.2, htoNat,
      if_neg (not_or.mpr ⟨fun h => h rfl, Nat.not_lt.mpr hoff⟩)]
    rfl
  rw [SnapshotServer.serve, (decodes_getSnapshot bh off).run, ← hpart]
  rfl

/-- A download from the peer `p`, with the requests on their way to it and its
answers on their way back. The server answers other peers in between, and other
peers send what they like. -/
inductive Transfer (cfg : Config) (files : Hash256 → Option Bytes) (p : UInt64) :
    FastSync → SnapshotServer → List Bytes → List Bytes → Prop
  | start {n : Nat} {t now : Int} {f f' : FastSync} {v : SnapshotServer} {s : Chainstate}
      {peers : List SyncPeer} {b : Bool} {req : Bytes}
      (h : Downloads cfg (fun _ _ => True) n t f)
      (hr : f.tryFastSync cfg s peers now = (f', b, some (p, req))) (hv : Kept files v) :
      Transfer cfg files p f' v [req] []
  | serve {f : FastSync} {v v' : SnapshotServer} {reqs reps : List Bytes} {req rep : Bytes}
      (h : Transfer cfg files p f v (req :: reqs) reps)
      (hr : v.serve files req = .ok (v', rep)) : Transfer cfg files p f v' reqs (reps ++ [rep])
  | other {f : FastSync} {v v' : SnapshotServer} {reqs reps : List Bytes} {req rep : Bytes}
      (h : Transfer cfg files p f v reqs reps) (hr : v.serve files req = .ok (v', rep)) :
      Transfer cfg files p f v' reqs reps
  | deliver {f f' : FastSync} {v : SnapshotServer} {reqs reps : List Bytes} {rep : Bytes}
      {now : Int} {a : SyncAction} (h : Transfer cfg files p f v reqs (rep :: reps))
      (hr : f.receive p now rep = .ok (f', a)) (hon : f'.peer = some p) :
      Transfer cfg files p f' v (reqs ++ requests a) reps
  | foreign {f f' : FastSync} {v : SnapshotServer} {reqs reps : List Bytes} {id : UInt64}
      {payload : Bytes} {now : Int} {a : SyncAction} (h : Transfer cfg files p f v reqs reps)
      (hid : id ≠ p) (hr : f.receive id now payload = .ok (f', a)) :
      Transfer cfg files p f' v reqs reps
  | poll {f f' : FastSync} {v : SnapshotServer} {reqs reps : List Bytes} {s : Chainstate}
      {peers : List SyncPeer} {now : Int} {b : Bool} (h : Transfer cfg files p f v reqs reps)
      (hr : f.tryFastSync cfg s peers now = (f', b, none)) (hon : f'.peer = some p) :
      Transfer cfg files p f' v reqs reps

/-- What there is, is the front of the file, and either the request for the next
chunk is under way or the chunk. -/
structure Assembling (files : Hash256 → Option Bytes) (p : UInt64) (file : Bytes) (f : FastSync)
    (v : SnapshotServer) (reqs reps : List Bytes) : Prop where
  peer : f.peer = some p
  kept : Kept files v
  front : f.buf <+: file
  short : f.buf.length < file.length
  total : f.total = 0 ∨ f.total = UInt64.ofNat file.length
  pending : reqs = [writeGetSnapshot f.block f.buf.length] ∧ reps = [] ∨
    reqs = [] ∧ reps = [(chunkAt f.block file f.buf.length).write]

section

variable {file : Bytes}

omit [Crypto] in
/-- The chunk for which the node waits is accepted, and it is either asked for the
next one or has the file. -/
theorem Assembling.deliver {rep : Bytes} (h : Assembling files p file f v reqs (rep :: reps))
    (hsmall : file.length ≤ 4 * 2 ^ 30) (hr : f.receive p now rep = .ok (f', a)) :
    f'.block = f.block ∧
      ((∃ r, a = .request r) ∧ Assembling files p file f' v (reqs ++ requests a) reps ∨
        f'.peer = none ∧ a = .load file) := by
  rcases h.pending with ⟨-, hreps⟩ | ⟨rfl, hreps⟩
  · cases hreps
  obtain ⟨rfl, rfl⟩ := List.cons.inj hreps
  have hshort := h.short
  have hlen : (UInt64.ofNat file.length).toNat = file.length := by
    rw [UInt64.toNat_ofNat']
    omega
  have hoff : (UInt64.ofNat f.buf.length).toNat = f.buf.length := by
    rw [UInt64.toNat_ofNat']
    omega
  obtain ⟨x, rest, hread, ht⟩ := receive_ok hr
  rw [(decodes_snapshotPart (x := chunkAt f.block file f.buf.length)
    (List.length_take_le _ _)).run] at hread
  cases hread
  have haccepts : f.Accepts p (chunkAt f.block file f.buf.length) := {
    peer := h.peer
    block := rfl
    pos := fun hzero => by
      rw [show UInt64.ofNat file.length = 0 from hzero] at hlen
      exact absurd hlen (Nat.ne_of_lt (Nat.lt_of_le_of_lt (Nat.zero_le _) hshort))
    small := hlen.trans_le hsmall
    off := hoff
    total := h.total.imp id fun he => he.symm }
  -- What there was and the chunk, cut from the file at one place.
  have hfront : f.buf ++ (chunkAt f.block file f.buf.length).chunk <+: file := by
    have hcut : f.buf ++ (chunkAt f.block file f.buf.length).chunk =
        file.take (f.buf.length + snapshotChunk) := by
      rw [chunkAt, List.take_add, ← List.prefix_iff_eq_take.mp h.front]
    rw [hcut]
    exact List.take_prefix _ _
  rcases f.takePart_cases p (chunkAt f.block file f.buf.length) now with
    ⟨hno, -⟩ | ⟨-, hno, -⟩ | ⟨-, hlt, he⟩ | ⟨-, hge, he⟩
  · exact absurd ⟨haccepts.peer, haccepts.block⟩ hno
  · exact absurd haccepts hno
  · rw [he] at ht
    cases ht
    have hlt : (f.append (chunkAt f.block file f.buf.length) now).buf.length < file.length :=
      hlt.trans_eq hlen
    exact ⟨rfl, .inl ⟨⟨_, rfl⟩, {
      peer := h.peer
      kept := h.kept
      front := hfront
      short := hlt
      total := .inr rfl
      pending := .inl ⟨rfl, rfl⟩ }⟩⟩
  · rw [he] at ht
    cases ht
    have hwhole : f.buf ++ (chunkAt f.block file f.buf.length).chunk = file :=
      hfront.eq_of_length_le (hlen.symm.trans_le hge)
    exact ⟨rfl, .inr ⟨rfl, congrArg SyncAction.load hwhole⟩⟩

theorem Transfer.peer (h : Transfer cfg files p f v reqs reps) : f.peer = some p := by
  induction h with
  | start h hr hv =>
      rename_i n t now f f' v s peers b req
      rcases tryFastSync_cases cfg s peers now f with ⟨c, he, -⟩ | he | ⟨id, target, he⟩
      all_goals
        rw [he] at hr
        cases hr
      rfl
  | serve h hr ih => exact ih
  | other h hr ih => exact ih
  | deliver h hr hon ih => exact hon
  | foreign h hid hr ih =>
      obtain ⟨x, rest, -, ht⟩ := receive_ok hr
      rw [takePart_foreign (ih ▸ fun he => hid (Option.some.inj he).symm)] at ht
      cases ht
      exact ih
  | poll h hr hon ih => exact hon

theorem Transfer.assembling (h : Transfer cfg files p f v reqs reps) (hzero : f.block ≠ 0)
    (hfile : files f.block = some file) (hpos : 0 < file.length)
    (hsmall : file.length ≤ 4 * 2 ^ 30) : Assembling files p file f v reqs reps := by
  have hlarge : file.length < 2 ^ 64 := Nat.lt_of_le_of_lt hsmall (by decide)
  induction h with
  | start h hr hv =>
      rename_i n t now f f' v s peers b req
      obtain ⟨-, hbuf, htotal⟩ := h.clear.giveUp
      rcases tryFastSync_cases cfg s peers now f with ⟨c, he, -⟩ | he | ⟨id, target, he⟩
      all_goals
        rw [he] at hr
        cases hr
      exact {
        peer := rfl
        kept := hv
        front := by
          show f.giveUp.buf <+: file
          rw [hbuf]
          exact List.nil_prefix
        short := by
          show f.giveUp.buf.length < file.length
          rwa [hbuf]
        total := .inl htotal
        pending := .inl ⟨by rw [hbuf]; rfl, rfl⟩ }
  | serve h hr ih =>
      have ha := ih hzero hfile
      rcases ha.pending with ⟨hreqs, rfl⟩ | ⟨hreqs, -⟩
      · obtain ⟨rfl, rfl⟩ := List.cons.inj hreqs
        have hkept := ha.kept.serve hr
        rw [ha.kept.serve_file hzero hfile ha.short.le hlarge] at hr
        cases hr
        exact { ha with kept := hkept, pending := .inr ⟨rfl, rfl⟩ }
      · cases hreqs
  | other h hr ih =>
      have ha := ih hzero hfile
      exact { ha with kept := ha.kept.serve hr }
  | deliver h hr hon ih =>
      rename_i f f' v reqs reps rep now a
      have hblock : f'.block = f.block := by
        obtain ⟨x, rest, -, ht⟩ := receive_ok hr
        exact takePart_block ht
      rw [hblock] at hzero hfile
      obtain ⟨-, ⟨-, ha⟩ | ⟨hnone, -⟩⟩ := (ih hzero hfile).deliver hsmall hr
      · exact ha
      · rw [hnone] at hon
        cases hon
  | foreign h hid hr ih =>
      rename_i f f' v reqs reps id payload now a
      obtain ⟨x, rest, -, ht⟩ := receive_ok hr
      rw [takePart_foreign (h.peer ▸ fun he => hid (Option.some.inj he).symm)] at ht
      cases ht
      exact ih hzero hfile
  | poll h hr hon ih =>
      rename_i f f' v reqs reps s peers now b
      rcases tryFastSync_cases cfg s peers now f with ⟨c, he, -⟩ | he | ⟨id, target, he⟩
      all_goals
        rw [he] at hr
        cases hr
      · exact ih hzero hfile
      · rw [giveUp_peer] at hon
        cases hon

end

/-! ## Bounded downloads -/

/-- A download has made no more requests than there are bytes, goes forward with
every chunk it accepts, and is given up if it has not for a minute. -/
structure Bounded (cfg : Config) (n : Nat) (t : Int) (f : FastSync) : Prop where
  requests : f.peer.isSome = true → n ≤ f.total.toNat
  progress : ∀ id now payload f' a, f.Fair (.message id now payload) →
    f.receive id now payload = .ok (f', a) →
    f' = f ∧ a = .nothing ∨ f'.peer = none ∨ f.buf.length < f'.buf.length
  timely : ∀ s peers now f', f.Fair (.poll s peers now) →
    f.tryFastSync cfg s peers now = (f', true, none) → now < t + 60000

theorem Downloads.bounded (h : Downloads cfg Fair n t f) : f.Bounded cfg n t where
  requests := fun hp => by
    obtain ⟨hn, -⟩ := h.asked hp
    rcases h.clear.short with ⟨hbuf, -⟩ | hlt
    · rw [hbuf] at hn
      exact Nat.le_trans hn (Nat.zero_le _)
    · exact Nat.le_trans hn hlt.le
  progress := by
    intro id now payload f' a hfair hr
    obtain ⟨x, rest, hread, ht⟩ := receive_ok hr
    rcases f.takePart_cases id x now with ⟨-, he⟩ | ⟨-, -, he⟩ | ⟨ha, -, he⟩ | ⟨-, -, he⟩
    all_goals
      rw [he] at ht
      cases ht
    · exact .inl ⟨rfl, rfl⟩
    · exact .inr (.inl rfl)
    · refine .inr (.inr ?_)
      have hpos := List.length_pos_iff.mpr (hfair x rest hread ha)
      show f.buf.length < (f.buf ++ x.chunk).length
      rw [List.length_append]
      omega
    · exact .inr (.inl rfl)
  timely := by
    intro s peers now f' hfair hr
    rcases tryFastSync_cases cfg s peers now f with ⟨c, he, hc⟩ | he | ⟨id, target, he⟩
    all_goals
      rw [he] at hr
      cases hr
    obtain ⟨hp, hlate⟩ := hc rfl
    obtain ⟨-, hsince⟩ := h.asked hp
    have := hlate.resolve_left (hfair hp)
    omega

/-- A download whose every step is fair makes at most as many requests as the file
has bytes, and a peer that serves a file has exactly that file handed on. -/
theorem snapshot_download (cfg : Config) :
    (∀ n t f, Downloads cfg Fair n t f → f.Bounded cfg n t) ∧
    ∀ files p f v reqs rep reps file, Transfer cfg files p f v reqs (rep :: reps) →
      f.block ≠ 0 → files f.block = some file → 0 < file.length → file.length ≤ 4 * 2 ^ 30 →
      ∀ now f' a, f.receive p now rep = .ok (f', a) →
        (∃ r, a = .request r) ∨ f'.peer = none ∧ a = .load file := by
  refine ⟨fun n t f h => h.bounded, ?_⟩
  intro files p f v reqs rep reps file h hzero hfile hpos hsmall now f' a hr
  obtain ⟨-, ⟨hreq, -⟩ | hload⟩ := (h.assembling hzero hfile hpos hsmall).deliver hsmall hr
  · exact .inl hreq
  · exact .inr hload

end FastSync

end QuantCore

namespace QuantCore.FastSync

attribute [local instance] stampCrypto

open Chainstate

/-! ## Chunks with nothing in them -/

/-- The node of the long header line asks the one peer there is. -/
theorem line_asks : ∃ (s : Chainstate) (target : Hash256),
    Reaches (regtestWith quiet) anyOffers anyStep .idle s ∧ target ≠ 0 ∧
    tryFastSync (regtestWith quiet) s [⟨1, true, 8, 0⟩] 0 {} =
      ({ peer := some 1, block := target }, true, some (1, writeGetSnapshot target 0)) := by
  have hrun : ((forgedLine quiet).map fun s =>
      let r := tryFastSync (regtestWith quiet) s [⟨1, true, 8, 0⟩] 0 {}
      r.2.2.isSome && r.1.peer == some 1 && r.1.block != 0) = some true := by
    decide +kernel
  obtain ⟨s, hs, hrun⟩ := Option.map_eq_some_iff.mp hrun
  simp only [Bool.and_eq_true, beq_iff_eq, bne_iff_ne] at hrun
  obtain ⟨⟨hsome, hpeer⟩, hblock⟩ := hrun
  rcases tryFastSync_cases (regtestWith quiet) s [⟨1, true, 8, 0⟩] 0 {} with
    ⟨c, he, -⟩ | he | ⟨id, target, he⟩
  · rw [he] at hsome
    cases hsome
  · rw [he] at hsome
    cases hsome
  · rw [he] at hpeer hblock
    obtain rfl : id = 1 := Option.some.inj hpeer
    exact ⟨s, target, reaches_forgedLine hs, hblock, he⟩

/-- Three bytes of five have come; and a file of three bytes is handed on. -/
theorem snapshot_download_line : ∃ (target : Hash256) (f : FastSync),
    (f.peer = some 1 ∧ f.buf = [1, 2, 3] ∧ f.total = 5 ∧ f.Bounded (regtestWith quiet) 1 7) ∧
    ∀ now f' a, ({ peer := some 1, block := target } : FastSync).receive 1 now
        (chunkAt target [1, 2, 3] 0).write = .ok (f', a) →
      (∃ r, a = .request r) ∨ f'.peer = none ∧ a = .load [1, 2, 3] := by
  obtain ⟨s, target, -, hzero, hr⟩ := line_asks
  obtain ⟨hbounded, hserved⟩ := snapshot_download (regtestWith quiet)
  have hkept : Kept (fun _ => some [1, 2, 3]) {} := .inl rfl
  have htransfer := Transfer.serve (.start .start hr hkept)
    (hkept.serve_file hzero rfl (Nat.zero_le _) (by decide))
  have hstart : Downloads (regtestWith quiet) Fair 0 0 { peer := some 1, block := target } :=
    .choose .start (fun h => by cases h) hr
  have hchunk : ([1, 2, 3] : Bytes).length ≤ snapshotChunk := by decide
  have hpos : (5 : UInt64) ≠ 0 := by decide
  have hsmall : (5 : UInt64).toNat ≤ 4 * 2 ^ 30 := by decide
  have hrest : ([1, 2, 3] : Bytes).length < (5 : UInt64).toNat := by decide
  have hpart : Accepts { peer := some 1, block := target } 1 ⟨target, 5, 0, [1, 2, 3]⟩ :=
    ⟨rfl, rfl, hpos, hsmall, rfl, .inl rfl⟩
  have hfair : Fair { peer := some 1, block := target }
      (.message 1 7 (SnapshotPart.write ⟨target, 5, 0, [1, 2, 3]⟩)) := by
    intro x rest hread _
    rw [(decodes_snapshotPart hchunk).run] at hread
    cases hread
    exact List.cons_ne_nil _ _
  have hmore := Downloads.message hstart hfair
    ((receive_write _ 1 7 hchunk).trans (congrArg _ (hpart.takePart hrest)))
  refine ⟨target, _, ⟨rfl, rfl, rfl, hbounded _ _ _ hmore⟩, ?_⟩
  exact hserved _ _ _ _ _ _ _ [1, 2, 3] htransfer hzero rfl (by decide) (by decide)

/-- A file of one byte, and chunks of none: the third request is under way. -/
theorem empty_chunks_go_on : ¬ ∀ (cfg : Config) (n : Nat) (t : Int) (f : FastSync),
    Downloads cfg (fun _ _ => True) n t f → f.peer.isSome = true → n ≤ f.total.toNat := by
  intro hall
  obtain ⟨s, target, -, -, hr⟩ := line_asks
  have hchunk : ([] : Bytes).length ≤ snapshotChunk := Nat.zero_le _
  have hpos : (1 : UInt64) ≠ 0 := by decide
  have hsmall : (1 : UInt64).toNat ≤ 4 * 2 ^ 30 := by decide
  have hfirst : Accepts { peer := some 1, block := target } 1 ⟨target, 1, 0, []⟩ :=
    ⟨rfl, rfl, hpos, hsmall, rfl, .inl rfl⟩
  have hsecond : Accepts { peer := some 1, block := target, total := 1 } 1 ⟨target, 1, 0, []⟩ :=
    ⟨rfl, rfl, hpos, hsmall, rfl, .inr rfl⟩
  have h₀ : Downloads (regtestWith quiet) (fun _ _ => True) 0 0
      { peer := some 1, block := target } := .choose .start trivial hr
  have h₁ := Downloads.message h₀ trivial
    ((receive_write _ 1 0 hchunk).trans (congrArg _ (hfirst.takePart Nat.zero_lt_one)))
  have h₂ := Downloads.message h₁ trivial
    ((receive_write _ 1 0 hchunk).trans (congrArg _ (hsecond.takePart Nat.zero_lt_one)))
  have htwo : 2 ≤ 1 := hall _ _ _ _ h₂ rfl
  omega

end QuantCore.FastSync
