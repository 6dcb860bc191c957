import Mathlib.Data.Finset.Erase
import QuantCore.Net.Frame
import QuantCore.Net.Messages

/-!
# Peers

What the engine keeps of a connection. The socket, its output buffer and the
counters that are only shown are left out; in the place of the buffer stands
the list of messages that were put into it.
-/

namespace QuantCore

/-- `MAX_KNOWN_INV`. -/
def maxKnownInv : Nat := 5000

/-- What a peer is known to have: the set `known`, and `known_order`, the same
hashes with the one to forget first in front. -/
structure Known where
  set : Finset Hash256 := ∅
  order : List Hash256 := []
  mem_order : ∀ h, h ∈ set ↔ h ∈ order := by simp
  nodup : order.Nodup := by simp
  bound : order.length ≤ maxKnownInv := by simp

namespace Known

/-- One more hash at the end, before anything is forgotten. -/
theorem snoc_nodup (k : Known) {h : Hash256} (hn : h ∉ k.set) : (k.order ++ [h]).Nodup := by
  have hd : h ∉ k.order := fun hm => hn ((k.mem_order h).mpr hm)
  rw [List.nodup_append]
  refine ⟨k.nodup, List.nodup_singleton h, fun a ha b hb => ?_⟩
  rw [List.mem_singleton] at hb
  rintro rfl
  exact hd (hb ▸ ha)

/-- The front of the order is what the set forgets. -/
theorem mem_tail_iff {l : List Hash256} (hl : l.Nodup) (hne : l ≠ []) (x : Hash256) :
    x ∈ l.tail ↔ x ≠ l.headD 0 ∧ x ∈ l := by
  cases l with
  | nil => exact absurd rfl hne
  | cons a l =>
      rw [List.nodup_cons] at hl
      show x ∈ l ↔ x ≠ a ∧ x ∈ a :: l
      rw [List.mem_cons]
      constructor
      · intro hx
        exact ⟨fun ha => hl.1 (ha ▸ hx), Or.inr hx⟩
      · rintro ⟨hne, hx | hx⟩
        · exact absurd hx hne
        · exact hx

/-- `mark_known`. -/
def mark (k : Known) (h : Hash256) : Known :=
  if hk : h ∈ k.set then k
  else if hb : (k.order ++ [h]).length > maxKnownInv then
    { set := (insert h k.set).erase ((k.order ++ [h]).headD 0)
      order := (k.order ++ [h]).tail
      mem_order := fun x => by
        rw [mem_tail_iff (k.snoc_nodup hk) (by simp), Finset.mem_erase, Finset.mem_insert,
          k.mem_order, List.mem_append, List.mem_singleton, or_comm]
      nodup := (k.snoc_nodup hk).tail
      bound := by
        rw [List.length_tail, List.length_append, List.length_singleton, Nat.add_sub_cancel]
        exact k.bound }
  else
    { set := insert h k.set
      order := k.order ++ [h]
      mem_order := fun x => by
        rw [Finset.mem_insert, k.mem_order, List.mem_append, List.mem_singleton, or_comm]
      nodup := k.snoc_nodup hk
      bound := Nat.le_of_not_gt hb }

end Known

structure Peer where
  id : UInt64 := 0
  addr : NetAddr
  inbound : Bool := false
  manual : Bool := false
  connecting : Bool := false
  gotVersion : Bool := false
  gotVerack : Bool := false
  disconnect : Bool := false
  ver : VersionMsg := {}
  /-- The buffer of `rx`. -/
  rx : Bytes := []
  startMs : Int := 0
  lastRecvMs : Int := 0
  pingSentMs : Int := 0
  lastGetheadersMs : Int := 0
  bestHeight : Int := 0
  stalls : Nat := 0
  known : Known := {}
  /-- The messages put into `txbuf` so far. -/
  out : List (Cmd × Bytes) := []

namespace Peer

def active (p : Peer) : Bool := p.gotVersion && p.gotVerack && !p.disconnect

def full (p : Peer) : Bool := p.ver.services &&& serviceFull != 0

def markKnown (p : Peer) (h : Hash256) : Peer := { p with known := p.known.mark h }

/-- `send`: a message for the buffer. `breaks` says that the buffer is full or
the socket is gone once it is there. -/
def put (p : Peer) (c : Cmd) (payload : Bytes) (breaks : Bool) : Peer :=
  if p.disconnect then p else { p with out := p.out ++ [(c, payload)], disconnect := breaks }

/-- The connection is there. -/
def ready (p : Peer) (now : Int) : Peer := { p with connecting := false, lastRecvMs := now }

/-- The peer's version is one we take. -/
def introduce (p : Peer) (v : VersionMsg) : Peer :=
  { p with gotVersion := true, bestHeight := v.height }

end Peer

end QuantCore
