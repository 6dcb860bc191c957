import QuantCore.Crypto.Instances
import QuantCore.Proofs.WalletRun
import QuantCore.Wallet.File

/-!
# The key list of a wallet

Only three calls touch the keys: handing out an address, seeing a coin and
setting a label. What these keep, and what the rest of the wallet has no say in,
holds of a wallet for as long as it is used (`KeyStable.step`).

So key number `i` is the key of index `i`, the address index says where an
address was derived last, and the keys reach exactly `LOOKAHEAD` past the next
one to be handed out. The last of these is what a wallet restored from its seed
relies on: it finds every output of its own whose address is no further than that
from those it found before.
-/

namespace QuantCore

open Maps

namespace Wallet

/-- What holds of a wallet by its keys. -/
structure KeyStable (P : Wallet → Prop) : Prop where
  frame : ∀ {w w' : Wallet}, P w → w'.keyAddr = w.keyAddr → w'.keys = w.keys →
    w'.nextIndex = w.nextIndex → w'.byAddr = w.byAddr → P w'
  addCoin : ∀ {w : Wallet} (c : WalletCoin), P w → P (w.addCoin c)
  issueKey : ∀ {w w' : Wallet} {label : String} {a : Hash256},
    w.issueKey label = some (a, w') → P w → P w'
  setLabel : ∀ {w : Wallet} (addr : Hash256) (label : String), P w → P (w.setLabel addr label)

namespace KeyStable

variable {P : Wallet → Prop} (hP : KeyStable P)
include hP

theorem takeInput {w : Wallet} (h : P w) (height : Int) (e : TxEffect) (i : TxIn) :
    P (takeInput height (w, e) i).1 := by
  rw [Wallet.takeInput]
  split
  · exact h
  · exact hP.frame h rfl rfl rfl rfl

variable [Crypto]

theorem takeOutput {w : Wallet} (h : P w) (txid : Hash256) (height : Int) (coinbase : Bool)
    (e : TxEffect) (o : TxOut × Nat) : P (takeOutput txid height coinbase (w, e) o).1 := by
  rw [Wallet.takeOutput]
  split
  · exact hP.addCoin _ h
  · exact h

theorem processTx {w : Wallet} (h : P w) (tx : Transaction) (height time : Int) :
    P (w.processTx tx height time) := by
  have hs : P (w.scanTx tx height).1 := by
    rw [scanTx]
    refine List.foldlRecOn (motive := fun s : Wallet × TxEffect => P s.1) _ _ ?_
      fun s hs o _ => hP.takeOutput hs _ height _ s.2 o
    exact List.foldlRecOn (motive := fun s : Wallet × TxEffect => P s.1) _ _ h
      fun s hs i _ => hP.takeInput hs height s.2 i
  simp only [Wallet.processTx]
  split
  · exact hs
  · exact hP.frame hs rfl rfl rfl rfl

theorem step {w w' : Wallet} (h : Step w w') (hw : P w) : P w' := by
  cases h with
  | newAddress h => exact hP.issueKey h hw
  | setLabel addr label => exact hP.setLabel addr label hw
  | addCoin c => exact hP.addCoin c hw
  | removeCoin o => exact hP.frame hw rfl rfl rfl rfl
  | replaceCoins coins =>
      have hclear : P { w with coins := ∅ } := hP.frame hw rfl rfl rfl rfl
      exact List.foldlRecOn _ _ hclear fun w hw c _ => hP.addCoin c hw
  | recordTx t => exact hP.frame hw rfl rfl rfl rfl
  | blockConnected b height =>
      have hall := List.foldlRecOn b.txs (motive := P)
        (fun w tx => w.processTx tx height (int64 b.header.time)) hw
        fun w hw tx _ => hP.processTx hw tx height _
      exact hP.frame hall rfl rfl rfl rfl
  | blockDisconnected b height =>
      have hall : P (b.txs.foldl unconfirmTx w) := by
        refine List.foldlRecOn b.txs (motive := P) _ hw fun w hw tx _ => ?_
        rw [unconfirmTx]
        split
        · exact hw
        · exact hP.frame hw rfl rfl rfl rfl
      exact hP.frame hall rfl rfl rfl rfl
  | txBroadcast tx note now =>
      have hp := hP.processTx hw tx (-1) now
      simp only [txBroadcast]
      split
      · exact hp
      · split
        · exact hp
        · exact hP.frame hp rfl rfl rfl rfl
  | abandonUnconfirmed => exact hP.frame hw rfl rfl rfl rfl
  | request h => exact request_keeps (P := P) (fun _ _ _ ha hf => hP.issueKey ha hf) h hw
  | synced tip height => exact hP.frame hw rfl rfl rfl rfl

end KeyStable

/-! ## Deriving keys -/

theorem deriveUntil_keeps {P : Wallet → Prop} (hP : ∀ w : Wallet, P w → P w.deriveNext)
    (count : UInt32) {w : Wallet} (h : P w) : P (deriveUntil count w) := by
  rw [deriveUntil]
  induction count.toNat - w.keys.length generalizing w with
  | zero => exact h
  | succ n ih =>
      rw [Function.iterate_succ_apply]
      exact ih (hP w h)

theorem deriveUntil_length (count : UInt32) (w : Wallet) :
    (deriveUntil count w).keys.length = max w.keys.length count.toNat := by
  have hn : ∀ (n : Nat) (w : Wallet), (deriveNext^[n] w).keys.length = w.keys.length + n := by
    intro n
    induction n with
    | zero => exact fun w => rfl
    | succ n ih =>
        intro w
        rw [Function.iterate_succ_apply, ih, deriveNext, List.length_append, List.length_singleton]
        omega
  rw [deriveUntil, hn]
  omega

/-- The address index of a list of addresses: the last place of each. -/
def indexOf (as : List Hash256) : Hash256 → Option Nat := updateAll (fun _ => none) as.zipIdx

theorem indexOf_append (as : List Hash256) (a : Hash256) :
    indexOf (as ++ [a]) = Function.update (indexOf as) a (some as.length) := by
  rw [indexOf, List.zipIdx_append, updateAll_append, Nat.zero_add]
  rfl

theorem indexOf_some {as : List Hash256} {a : Hash256} {i : Nat} (h : indexOf as a = some i) :
    as[i]? = some a := by
  rcases mem_of_updateAll h with h | h
  · obtain ⟨hi, ha⟩ := List.mem_zipIdx' h
    rw [List.getElem?_eq_getElem hi, ha]
  · cases h

/-- The last place of an address is not before any of its places. -/
theorem le_indexOf {as : List Hash256} {a : Hash256} {i j : Nat} (h : indexOf as a = some j)
    (hi : as[i]? = some a) : i ≤ j := by
  induction as using List.reverseRecOn generalizing j with
  | nil => cases hi
  | append_singleton as b ih =>
      rw [indexOf_append, Function.update_apply] at h
      obtain ⟨hlt, -⟩ := List.getElem?_eq_some_iff.mp hi
      rw [List.length_append, List.length_singleton] at hlt
      split at h
      · cases h
        omega
      · next hne =>
          by_cases hlast : i = as.length
          · rw [hlast, List.getElem?_append_right (Nat.le_refl _), Nat.sub_self] at hi
            cases hi
            exact absurd rfl hne
          · rw [List.getElem?_append_left (by omega)] at hi
            exact ih h hi

theorem indexOf_isSome {as : List Hash256} {a : Hash256} (h : a ∈ as) :
    ∃ i, indexOf as a = some i := by
  have hm : a ∈ as.zipIdx.map Prod.fst := by rwa [List.zipIdx_map_fst]
  obtain ⟨i, hi⟩ := exists_updateAll_of_mem hm
  exact ⟨i, hi _⟩

/-! ## The keys of a wallet made from a seed -/

/-- Key number `i` is the key of index `i`, and the index is that of the keys. -/
structure Ring (w : Wallet) : Prop where
  key : ∀ i k, w.keys[i]? = some k →
    k.index = UInt32.ofNat i ∧ k.addr = w.keyAddr (UInt32.ofNat i)
  byAddr : fn w.byAddr = indexOf w.watchedAddresses

/-- The keys reach `LOOKAHEAD` past the next one, while there are indices left. -/
def Ahead (w : Wallet) : Prop :=
  w.keys.length + lookahead.toNat < 2 ^ 32 →
    w.keys.length = w.nextIndex.toNat + lookahead.toNat

namespace Ring

variable {w : Wallet}

theorem lookup (h : w.Ring) {a : Hash256} {i : Nat} (hl : w.byAddr.lookup a = some i) :
    ∃ k, w.keys[i]? = some k ∧ k.addr = a := by
  have hi : indexOf w.watchedAddresses a = some i := by rw [← h.byAddr]; exact hl
  have hg := indexOf_some hi
  rw [watchedAddresses, List.getElem?_map] at hg
  exact Option.map_eq_some_iff.mp hg

theorem isMine_iff (h : w.Ring) {a : Hash256} : w.isMine a = true ↔ a ∈ w.watchedAddresses := by
  have hfn : w.byAddr.lookup a = indexOf w.watchedAddresses a := congrFun h.byAddr a
  rw [isMine, hfn]
  constructor
  · intro hs
    obtain ⟨i, hi⟩ := Option.isSome_iff_exists.mp hs
    exact List.mem_of_getElem? (indexOf_some hi)
  · intro hm
    obtain ⟨i, hi⟩ := indexOf_isSome hm
    rw [hi]
    rfl

theorem deriveNext (h : w.Ring) : w.deriveNext.Ring where
  key := by
    intro i k hk
    rw [Wallet.deriveNext] at hk
    rcases Nat.lt_trichotomy i w.keys.length with hi | hi | hi
    · rw [List.getElem?_append_left hi] at hk
      exact h.key i k hk
    · rw [hi, List.getElem?_append_right (Nat.le_refl _), Nat.sub_self] at hk
      cases hk
      rw [hi]
      exact ⟨rfl, rfl⟩
    · rw [List.getElem?_eq_none (by rw [List.length_append, List.length_singleton]; omega)] at hk
      cases hk
  byAddr := by
    rw [Wallet.deriveNext, fn_insert, h.byAddr, watchedAddresses, watchedAddresses, List.map_append,
      List.map_singleton, indexOf_append, List.length_map]

theorem frame {w' : Wallet} (h : w.Ring) (ha : w'.keyAddr = w.keyAddr) (hk : w'.keys = w.keys)
    (hb : w'.byAddr = w.byAddr) : w'.Ring where
  key := by
    rw [hk, ha]
    exact h.key
  byAddr := by
    rw [hb, watchedAddresses, hk]
    exact h.byAddr

/-- A key may change but for its index and address. -/
theorem set (h : w.Ring) {i : Nat} {k : WalletKey} (hi : k.index = (w.keys.getD i default).index)
    (ha : k.addr = (w.keys.getD i default).addr) (next : UInt32) :
    Ring { w with keys := w.keys.set i k, nextIndex := next } := by
  have hget : ∀ (j : Nat) (k' : WalletKey), (w.keys.set i k)[j]? = some k' →
      ∃ k₀ : WalletKey, w.keys[j]? = some k₀ ∧ k'.index = k₀.index ∧ k'.addr = k₀.addr := by
    intro j k' hk'
    rw [List.getElem?_set] at hk'
    split at hk'
    · next hij =>
        split at hk'
        · next hlt =>
            cases hk'
            subst hij
            refine ⟨_, List.getElem?_eq_getElem hlt, ?_, ?_⟩
            · rw [hi, List.getD_eq_getElem?_getD, List.getElem?_eq_getElem hlt]
              rfl
            · rw [ha, List.getD_eq_getElem?_getD, List.getElem?_eq_getElem hlt]
              rfl
        · cases hk'
    · exact ⟨k', hk', rfl, rfl⟩
  refine ⟨fun j k' hk' => ?_, ?_⟩
  · obtain ⟨k₀, hk₀, hx, hy⟩ := hget j k' hk'
    rw [hx, hy]
    exact h.key j k₀ hk₀
  · have hw : (w.keys.set i k).map WalletKey.addr = w.keys.map WalletKey.addr := by
      refine List.ext_getElem? fun j => ?_
      rw [List.getElem?_map, List.getElem?_map]
      cases hj : (w.keys.set i k)[j]? with
      | none =>
          rw [List.getElem?_eq_none_iff, List.length_set] at hj
          rw [List.getElem?_eq_none hj]
      | some k' =>
          obtain ⟨k₀, hk₀, -, hy⟩ := hget j k' hj
          rw [hk₀, Option.map_some, Option.map_some, hy]
    show fn w.byAddr = indexOf ((w.keys.set i k).map WalletKey.addr)
    rw [hw]
    exact h.byAddr

theorem deriveUntil (h : w.Ring) (count : UInt32) : (deriveUntil count w).Ring :=
  deriveUntil_keeps (fun _ h => h.deriveNext) count h

end Ring

/-! ## They stay what they are -/

/-- The next index after a coin at key number `i`, in numbers. -/
theorem next_toNat {i n : Nat} {next : UInt32} (hlen : n = next.toNat + lookahead.toNat)
    (hi : i < n) (hn : n + lookahead.toNat < 2 ^ 32) :
    (if UInt32.ofNat i ≥ next then UInt32.ofNat i + 1 else next).toNat =
        max next.toNat (i + 1) ∧
      ((if UInt32.ofNat i ≥ next then UInt32.ofNat i + 1 else next) + lookahead).toNat =
        max next.toNat (i + 1) + lookahead.toNat := by
  have hl : lookahead.toNat = 20 := rfl
  have hof : (UInt32.ofNat i).toNat = i := by
    rw [UInt32.toNat_ofNat']
    omega
  have h1 : (UInt32.ofNat i + 1).toNat = i + 1 := by
    rw [UInt32.toNat_add, hof, show (1 : UInt32).toNat = 1 from rfl]
    omega
  have hmax : (if UInt32.ofNat i ≥ next then UInt32.ofNat i + 1 else next).toNat =
      max next.toNat (i + 1) := by
    split
    · next hge =>
        rw [ge_iff_le, UInt32.le_iff_toNat_le, hof] at hge
        rw [h1, Nat.max_eq_right (by omega)]
    · next hge =>
        rw [ge_iff_le, UInt32.le_iff_toNat_le, hof] at hge
        rw [Nat.max_eq_left (by omega)]
  refine ⟨hmax, ?_⟩
  rw [UInt32.toNat_add, hmax]
  omega

/-- A coin at key number `i`: the key is marked, and the next one moves past it. -/
theorem addCoin_mine {w : Wallet} (h : w.Ring) (c : WalletCoin) {i : Nat}
    (hi : w.byAddr.lookup c.out.addr = some i) :
    ∃ k next, w.keys[i]? = some k ∧
      next = (if UInt32.ofNat i ≥ w.nextIndex then UInt32.ofNat i + 1 else w.nextIndex) ∧
      w.addCoin c = deriveUntil (next + lookahead) { w with
        coins := w.coins.insert c.op c, keys := w.keys.set i (markIssued k), nextIndex := next } := by
  obtain ⟨k, hk, -⟩ := h.lookup hi
  have hget : w.keys.getD i default = k := by rw [List.getD_eq_getElem?_getD, hk, Option.getD_some]
  have hidx : (markIssued k).index = UInt32.ofNat i := by
    rw [← (h.key i k hk).1, markIssued]
    split <;> rfl
  refine ⟨k, _, hk, rfl, ?_⟩
  rw [addCoin]
  simp only [hi, hget, hidx]

theorem Ring.addCoin {w : Wallet} (h : w.Ring) (c : WalletCoin) : (w.addCoin c).Ring := by
  cases hi : w.byAddr.lookup c.out.addr with
  | none =>
      rw [Wallet.addCoin]
      simp only [hi]
      exact h.frame rfl rfl rfl
  | some i =>
      obtain ⟨k, next, hk, -, he⟩ := addCoin_mine h c hi
      have hget : w.keys.getD i default = k := by
        rw [List.getD_eq_getElem?_getD, hk, Option.getD_some]
      rw [he]
      refine Ring.deriveUntil (Ring.set (w := { w with coins := w.coins.insert c.op c })
        (h.frame rfl rfl rfl) ?_ ?_ next) _
      · rw [hget, markIssued]
        split <;> rfl
      · rw [hget, markIssued]
        split <;> rfl

theorem addCoin_length_le {w : Wallet} (c : WalletCoin) :
    w.keys.length ≤ (w.addCoin c).keys.length := by
  rw [addCoin]
  split
  · exact Nat.le_refl _
  · rw [deriveUntil_length, List.length_set]
    exact Nat.le_max_left _ _

/-- The next index after any coin, in a wallet that still has keys to derive. -/
theorem addCoin_next {w : Wallet} (h : w.Ring) (ha : w.Ahead) (c : WalletCoin)
    (hb : (w.addCoin c).keys.length + lookahead.toNat < 2 ^ 32) :
    (w.addCoin c).keys.length = (w.addCoin c).nextIndex.toNat + lookahead.toNat ∧
      (w.addCoin c).nextIndex.toNat =
        ((w.byAddr.lookup c.out.addr).map fun i => max w.nextIndex.toNat (i + 1)).getD
          w.nextIndex.toNat := by
  have hlen : w.keys.length = w.nextIndex.toNat + lookahead.toNat := by
    have := addCoin_length_le (w := w) c
    exact ha (by omega)
  cases hi : w.byAddr.lookup c.out.addr with
  | none =>
      rw [Wallet.addCoin]
      simp only [hi]
      exact ⟨hlen, rfl⟩
  | some i =>
      obtain ⟨k, next, hk, hnext, he⟩ := addCoin_mine h c hi
      obtain ⟨hlt, -⟩ := List.getElem?_eq_some_iff.mp hk
      rw [he, deriveUntil_length, List.length_set] at hb
      obtain ⟨h1, h2⟩ := next_toNat hlen hlt (by omega)
      rw [← hnext] at h1 h2
      rw [he, deriveUntil_length, deriveUntil_nextIndex, List.length_set]
      refine ⟨?_, h1⟩
      rw [h1, h2]
      omega

theorem Ahead.issueKey {w w' : Wallet} {label : String} {a : Hash256} (ha : w.Ahead)
    (h : w.issueKey label = some (a, w')) : w'.Ahead := by
  obtain ⟨k, hk, -, rfl⟩ := issueKey_some h
  have hl : lookahead.toNat = 20 := rfl
  intro hb
  have hset : ((Wallet.deriveUntil (w.nextIndex + 1 + lookahead) w).keys.set w.nextIndex.toNat
      { k with issued := true, label }).length =
        max w.keys.length (w.nextIndex + 1 + lookahead).toNat := by
    rw [List.length_set, deriveUntil_length]
  show ((Wallet.deriveUntil (w.nextIndex + 1 + lookahead) w).keys.set w.nextIndex.toNat
      { k with issued := true, label }).length = (w.nextIndex + 1).toNat + lookahead.toNat
  have hb' : max w.keys.length (w.nextIndex + 1 + lookahead).toNat + lookahead.toNat < 2 ^ 32 :=
    hset ▸ hb
  have hlen := ha (by omega)
  have h1 : (w.nextIndex + 1).toNat = w.nextIndex.toNat + 1 := by
    rw [UInt32.toNat_add, show (1 : UInt32).toNat = 1 from rfl]
    omega
  rw [hset, UInt32.toNat_add, h1]
  omega

theorem Ring.issueKey {w w' : Wallet} {label : String} {a : Hash256} (hw : w.Ring)
    (h : w.issueKey label = some (a, w')) : w'.Ring := by
  obtain ⟨k, hk, -, rfl⟩ := issueKey_some h
  have hd := hw.deriveUntil (w.nextIndex + 1 + lookahead)
  refine hd.set ?_ ?_ _
  · rw [List.getD_eq_getElem?_getD, hk]
    rfl
  · rw [List.getD_eq_getElem?_getD, hk]
    rfl

/-- Both facts, which only hold together. -/
structure Derived (w : Wallet) : Prop where
  ring : w.Ring
  ahead : w.Ahead

theorem derived_stable : KeyStable Derived where
  frame h ha hk hn hb := by
    refine ⟨h.ring.frame ha hk hb, ?_⟩
    rw [Ahead, hk, hn]
    exact h.ahead
  addCoin c h := ⟨h.ring.addCoin c, fun hb => (addCoin_next h.ring h.ahead c hb).1⟩
  issueKey hi h := ⟨h.ring.issueKey hi, h.ahead.issueKey hi⟩
  setLabel := by
    intro w addr label h
    rw [setLabel]
    split
    · exact h
    · next i _ =>
        refine ⟨h.ring.set (k := { w.keys.getD i default with label }) rfl rfl _, ?_⟩
        rw [Ahead, List.length_set]
        exact h.ahead

theorem create_derived {network : Network} {keyAddr : UInt32 → Hash256} {w : Wallet}
    (h : create network keyAddr = some w) : w.Derived := by
  rw [create] at h
  obtain ⟨⟨a, w'⟩, hk, rfl⟩ := Option.map_eq_some_iff.mp h
  have hempty : Ring { network, keyAddr } := ⟨fun i k hk => (by cases hk), fn_empty⟩
  have hd : Derived (deriveUntil lookahead { network, keyAddr }) := by
    refine ⟨hempty.deriveUntil lookahead, fun _ => ?_⟩
    rw [deriveUntil_length, deriveUntil_nextIndex]
    rfl
  exact derived_stable.issueKey hk hd

theorem Used.derived [Crypto] {net : Network} {o : Owner} {w : Wallet} (hw : Used net o w) :
    w.Derived ∧ w.keyAddr = o.keyAddr := by
  have hP : KeyStable fun w => w.keyAddr = o.keyAddr := {
    frame := fun h ha _ _ _ => ha.trans h
    addCoin := fun c h => ((addCoin_spec _ c).1.keyAddr).trans h
    issueKey := fun hi h => (issueKey_frame hi).1.keyAddr.trans h
    setLabel := fun addr label h => by
      rw [setLabel]
      split <;> exact h }
  induction hw with
  | created h =>
      refine ⟨create_derived h, ?_⟩
      rw [create] at h
      obtain ⟨⟨a, w'⟩, hk, rfl⟩ := Option.map_eq_some_iff.mp h
      exact ((issueKey_frame hk).1.keyAddr).trans (deriveUntil_grown _ _).keyAddr
  | step hw h ih => exact ⟨derived_stable.step h (ih hP).1, hP.step h (ih hP).2⟩
  | edited hw birthHeight contacts ih => exact ih hP

/-! ## Scanning the chain with a seed -/

/-- The outputs of a seed that are reached in a list of outputs: the index is less
than the gap limit past `n`, or past that of an output that was reached before. -/
inductive WithinGap (key : UInt32 → Hash256) (n : Nat) :
    List (OutPoint × Hash256) → OutPoint → UInt32 → Prop
  | first {l r : List (OutPoint × Hash256)} {op : OutPoint} {i : UInt32}
      (h : i.toNat < n + lookahead.toNat) : WithinGap key n (l ++ (op, key i) :: r) op i
  | next {l r : List (OutPoint × Hash256)} {op op' : OutPoint} {i j : UInt32}
      (hj : WithinGap key n l op' j) (h : i.toNat < j.toNat + 1 + lookahead.toNat) :
      WithinGap key n (l ++ (op, key i) :: r) op i

namespace WithinGap

variable {key : UInt32 → Hash256} {n : Nat} {outs : List (OutPoint × Hash256)} {op : OutPoint}
  {i : UInt32}

/-- An index is in reach of the outputs that were reached. -/
def Near (key : UInt32 → Hash256) (n : Nat) (outs : List (OutPoint × Hash256))
    (i : UInt32) : Prop :=
  i.toNat < n + lookahead.toNat ∨
    ∃ op j, WithinGap key n outs op j ∧ i.toNat < j.toNat + 1 + lookahead.toNat

theorem split (h : WithinGap key n outs op i) :
    ∃ l r, outs = l ++ (op, key i) :: r ∧ Near key n l i := by
  cases h with
  | first h => exact ⟨_, _, rfl, .inl h⟩
  | next hj h => exact ⟨_, _, rfl, .inr ⟨_, _, hj, h⟩⟩

theorem of_near {l r : List (OutPoint × Hash256)} (h : Near key n l i) :
    WithinGap key n (l ++ (op, key i) :: r) op i := by
  rcases h with h | ⟨op', j, hj, h⟩
  · exact .first h
  · exact .next hj h

theorem not_nil : ¬ WithinGap key n [] op i := by
  intro h
  obtain ⟨l, r, he, -⟩ := h.split
  exact List.append_ne_nil_of_right_ne_nil l (List.cons_ne_nil _ r) he.symm

/-- Whether an output is reached shows when it comes. -/
theorem of_snoc {x : OutPoint × Hash256} (h : WithinGap key n (outs ++ [x]) op i) :
    WithinGap key n outs op i ∨ x = (op, key i) ∧ Near key n outs i := by
  obtain ⟨l, r, he, hn⟩ := h.split
  rcases List.eq_nil_or_concat r with rfl | ⟨r, y, rfl⟩
  · obtain ⟨rfl, hx⟩ := List.append_inj' he rfl
    exact .inr ⟨List.singleton_inj.mp hx, hn⟩
  · rw [List.concat_eq_append, ← List.cons_append, ← List.append_assoc] at he
    obtain ⟨rfl, -⟩ := List.append_inj' he rfl
    exact .inl (of_near hn)

end WithinGap

/-- The outputs of a transaction, each with its outpoint. -/
def outputsOf [Crypto] (tx : Transaction) : List (OutPoint × Hash256) :=
  tx.outs.zipIdx.map fun o => (⟨tx.txid, UInt32.ofNat o.2⟩, o.1.addr)

/-- `block_connected` for blocks on top of each other, the first at `height`. -/
def connectAll [Crypto] (w : Wallet) (height : Int) (bs : List Block) : Wallet :=
  bs.zipIdx.foldl (fun w b => w.blockConnected b.1 (height + b.2)) w

theorem Used.connectAll [Crypto] {net : Network} {o : Owner} {w : Wallet} (hw : Used net o w)
    (height : Int) (bs : List Block) : Used net o (w.connectAll height bs) := by
  rw [Wallet.connectAll]
  generalize 0 = k
  induction bs generalizing w k with
  | nil => exact hw
  | cons b bs ih =>
      rw [List.zipIdx_cons, List.foldl_cons]
      exact ih (.step hw (.blockConnected _ _ _)) _

/-- What a wallet has of the outputs seen so far, if there are indices left. -/
structure Swept (key : UInt32 → Hash256) (n : Nat) (outs : List (OutPoint × Hash256))
    (spent : List OutPoint) (w : Wallet) : Prop where
  derived : w.Derived
  keyAddr : w.keyAddr = key
  own : w.keys.length + lookahead.toNat < 2 ^ 32 → n ≤ w.nextIndex.toNat ∧
    ∀ o i, WithinGap key n outs o i →
      i.toNat < w.nextIndex.toNat ∧ (o ∈ w.coins ∨ o ∈ spent)

namespace Swept

variable {key : UInt32 → Hash256} {n : Nat} {outs : List (OutPoint × Hash256)}
  {spent : List OutPoint} {w : Wallet}

theorem takeInput (h : Swept key n outs spent w) {height : Int} (hh : 0 ≤ height) (e : TxEffect)
    (i : TxIn) : Swept key n outs (spent ++ [i.prev]) (takeInput height (w, e) i).1 := by
  rw [Wallet.takeInput]
  split
  · refine ⟨h.derived, h.keyAddr, fun hb => ⟨(h.own hb).1, fun o j ho => ?_⟩⟩
    obtain ⟨hj, hc⟩ := (h.own hb).2 o j ho
    exact ⟨hj, hc.imp_right (List.mem_append_left _)⟩
  · next c hc =>
      refine ⟨derived_stable.frame h.derived rfl rfl rfl rfl, h.keyAddr, fun hb =>
        ⟨(h.own hb).1, fun o j ho => ?_⟩⟩
      obtain ⟨hj, hc⟩ := (h.own hb).2 o j ho
      refine ⟨hj, ?_⟩
      show o ∈ (if height < 0 then w.coins.insert i.prev { c with locked := true }
        else w.coins.erase i.prev) ∨ _
      rw [if_neg (by omega), AList.mem_erase]
      by_cases he : o = i.prev
      · exact .inr (List.mem_append_right _ (List.mem_singleton.mpr he))
      · exact hc.imp (fun hm => ⟨he, hm⟩) (List.mem_append_left _)

/-- An output of the wallet's own is seen if its index is within reach. -/
theorem isMine_of_lt (h : Swept key n outs spent w) {i : UInt32} (hi : i.toNat < w.keys.length) :
    w.isMine (key i) = true := by
  rw [h.derived.ring.isMine_iff, watchedAddresses]
  have hk := List.getElem?_eq_getElem hi
  have ha := (h.derived.ring.key _ _ hk).2
  rw [UInt32.ofNat_toNat, h.keyAddr] at ha
  exact List.mem_map.mpr ⟨_, List.getElem_mem hi, ha⟩

variable [Crypto]

theorem takeOutput (h : Swept key n outs spent w) (txid : Hash256) (height : Int)
    (coinbase : Bool) (e : TxEffect) (o : TxOut × Nat) :
    Swept key n (outs ++ [(⟨txid, UInt32.ofNat o.2⟩, o.1.addr)]) spent
      (takeOutput txid height coinbase (w, e) o).1 := by
  -- an own output within the gap limit is one the wallet watches
  have hmine : w.keys.length + lookahead.toNat < 2 ^ 32 → ∀ i, WithinGap.Near key n outs i →
      i.toNat < w.keys.length := by
    intro hb i hi
    obtain ⟨hn, hown⟩ := h.own hb
    have hlen := h.derived.ahead hb
    rcases hi with hlt | ⟨op, j, hj, hlt⟩
    · omega
    · have := (hown op j hj).1
      omega
  rw [Wallet.takeOutput]
  split
  · next hm =>
      refine ⟨derived_stable.addCoin _ h.derived, ((addCoin_spec _ _).1.keyAddr).trans h.keyAddr,
        fun hb => ?_⟩
      have hle := addCoin_length_le (w := w)
        ⟨⟨txid, UInt32.ofNat o.2⟩, o.1, height, coinbase, false⟩
      have hb' : w.keys.length + lookahead.toNat < 2 ^ 32 := by
        have hb : (w.addCoin ⟨⟨txid, UInt32.ofNat o.2⟩, o.1, height, coinbase, false⟩).keys.length +
          lookahead.toNat < 2 ^ 32 := hb
        omega
      obtain ⟨hn, hown⟩ := h.own hb'
      obtain ⟨-, hnext⟩ := addCoin_next h.derived.ring h.derived.ahead _ hb
      obtain ⟨i, hi⟩ := Option.isSome_iff_exists.mp hm
      have hi : w.byAddr.lookup o.1.addr = some i := hi
      simp only [hi, Option.map_some, Option.getD_some] at hnext
      refine ⟨by rw [hnext]; omega, fun op j hj => ?_⟩
      rw [hnext, (addCoin_spec _ _).2.1, AList.mem_insert]
      rcases hj.of_snoc with hj | ⟨heq, hnear⟩
      · obtain ⟨hlt, hc⟩ := hown op j hj
        exact ⟨by omega, hc.imp_left .inr⟩
      · obtain ⟨rfl, ha⟩ := Prod.mk.inj heq
        refine ⟨?_, .inl (.inl rfl)⟩
        have hlt := hmine hb' j hnear
        have hk := List.getElem?_eq_getElem hlt
        have hka := (h.derived.ring.key _ _ hk).2
        rw [UInt32.ofNat_toNat, h.keyAddr, ← ha] at hka
        have hplace : w.watchedAddresses[j.toNat]? = some o.1.addr := by
          rw [watchedAddresses, List.getElem?_map, hk, Option.map_some, hka]
        have := le_indexOf ((congrFun h.derived.ring.byAddr _).symm.trans hi) hplace
        omega
  · next hm =>
      refine ⟨h.derived, h.keyAddr, fun hb => ⟨(h.own hb).1, fun op j hj => ?_⟩⟩
      rcases hj.of_snoc with hj | ⟨heq, hnear⟩
      · exact (h.own hb).2 op j hj
      · have := h.isMine_of_lt (hmine hb j hnear)
        rw [← (Prod.mk.inj heq).2] at this
        exact absurd this hm

omit [Crypto] in
theorem takeInputs (h : Swept key n outs spent w) {height : Int} (hh : 0 ≤ height) (e : TxEffect)
    (ins : List TxIn) : Swept key n outs (spent ++ ins.map TxIn.prev)
      (ins.foldl (Wallet.takeInput height) (w, e)).1 := by
  induction ins generalizing w e spent with
  | nil => rwa [List.map_nil, List.append_nil]
  | cons i ins ih =>
      rw [List.map_cons, List.append_cons, List.foldl_cons]
      exact ih (h.takeInput hh e i) _

theorem takeOutputs (h : Swept key n outs spent w) {txid : Hash256} (height : Int)
    (coinbase : Bool) (e : TxEffect) (os : List (TxOut × Nat)) :
    Swept key n (outs ++ os.map fun o => (⟨txid, UInt32.ofNat o.2⟩, o.1.addr)) spent
      (os.foldl (Wallet.takeOutput txid height coinbase) (w, e)).1 := by
  induction os generalizing w e outs with
  | nil => rwa [List.map_nil, List.append_nil]
  | cons o os ih =>
      rw [List.map_cons, List.append_cons, List.foldl_cons]
      exact ih (h.takeOutput txid height coinbase e o) _

omit [Crypto] in
theorem frame {w' : Wallet} (h : Swept key n outs spent w) (hd : w'.Derived)
    (ha : w'.keyAddr = w.keyAddr) (hk : w'.keys = w.keys) (hn : w'.nextIndex = w.nextIndex)
    (hc : w'.coins = w.coins) : Swept key n outs spent w' where
  derived := hd
  keyAddr := ha.trans h.keyAddr
  own := by
    rw [hk, hn, hc]
    exact h.own

theorem processTx (h : Swept key n outs spent w) {height : Int} (hh : 0 ≤ height) (time : Int)
    (tx : Transaction) :
    Swept key n (outs ++ outputsOf tx) (spent ++ tx.ins.map TxIn.prev)
      (w.processTx tx height time) := by
  have hs : Swept key n (outs ++ outputsOf tx) (spent ++ tx.ins.map TxIn.prev)
      (w.scanTx tx height).1 := by
    rw [scanTx]
    exact (h.takeInputs hh _ tx.ins).takeOutputs height _ _ _
  simp only [Wallet.processTx]
  split
  · exact hs
  · exact hs.frame (derived_stable.frame hs.derived rfl rfl rfl rfl) rfl rfl rfl rfl

theorem processTxs (h : Swept key n outs spent w) {height : Int} (hh : 0 ≤ height) (time : Int)
    (txs : List Transaction) :
    Swept key n (outs ++ txs.flatMap outputsOf) (spent ++ txs.flatMap fun tx => tx.ins.map TxIn.prev)
      (txs.foldl (fun w tx => w.processTx tx height time) w) := by
  induction txs generalizing w outs spent with
  | nil =>
      rw [List.flatMap_nil, List.flatMap_nil, List.append_nil, List.append_nil]
      exact h
  | cons tx txs ih =>
      rw [List.flatMap_cons, List.flatMap_cons, ← List.append_assoc, ← List.append_assoc,
        List.foldl_cons]
      exact ih (h.processTx hh time tx)

theorem blockConnected (h : Swept key n outs spent w) {height : Int} (hh : 0 ≤ height)
    (b : Block) : Swept key n (outs ++ b.txs.flatMap outputsOf)
      (spent ++ b.txs.flatMap fun tx => tx.ins.map TxIn.prev) (w.blockConnected b height) := by
  have hs := h.processTxs hh (int64 b.header.time) b.txs
  exact hs.frame (derived_stable.frame hs.derived rfl rfl rfl rfl) rfl rfl rfl rfl

theorem connectAll (h : Swept key n outs spent w) {height : Int} (hh : 0 ≤ height)
    (bs : List Block) :
    Swept key n (outs ++ (bs.flatMap Block.txs).flatMap outputsOf)
      (spent ++ (bs.flatMap Block.txs).flatMap fun tx => tx.ins.map TxIn.prev)
      (w.connectAll height bs) := by
  rw [Wallet.connectAll]
  generalize 0 = k
  induction bs generalizing w outs spent k with
  | nil =>
      rw [List.flatMap_nil, List.flatMap_nil, List.flatMap_nil, List.append_nil, List.append_nil]
      exact h
  | cons b bs ih =>
      rw [List.flatMap_cons, List.flatMap_append, List.flatMap_append, ← List.append_assoc,
        ← List.append_assoc, List.zipIdx_cons, List.foldl_cons]
      exact ih (h.blockConnected (by omega) b) _

end Swept

/-- A wallet that is shown the blocks of a chain finds every output of its seed that
is reached within the gap limit: it has the coin, unless one of the blocks spends
it. -/
theorem connectAll_finds [Crypto] {net : Network} {o : Owner} {w : Wallet} (hw : Used net o w)
    {height : Int} (hh : 0 ≤ height) {bs : List Block}
    (hroom : (w.connectAll height bs).keys.length + lookahead.toNat < 2 ^ 32) :
    ∀ op i, WithinGap o.keyAddr w.nextIndex.toNat ((bs.flatMap Block.txs).flatMap outputsOf) op i →
      (w.connectAll height bs).isMine (o.keyAddr i) = true ∧
      i.toNat < (w.connectAll height bs).nextIndex.toNat ∧
      (op ∈ (w.connectAll height bs).coins ∨
        ∃ tx ∈ bs.flatMap Block.txs, op ∈ tx.ins.map TxIn.prev) := by
  obtain ⟨hd, ha⟩ := hw.derived
  have h0 : Swept o.keyAddr w.nextIndex.toNat [] [] w :=
    ⟨hd, ha, fun _ => ⟨Nat.le_refl _, fun _ _ h => absurd h WithinGap.not_nil⟩⟩
  have h := h0.connectAll hh bs
  intro op i hi
  obtain ⟨hlt, hc⟩ := (h.own hroom).2 op i hi
  have hlen := h.derived.ahead hroom
  exact ⟨h.isMine_of_lt (by omega), hlt, hc.imp_right fun hs => List.mem_flatMap.mp hs⟩

/-- What a wallet watches is the keys of the indices before its next one and
`LOOKAHEAD` more, in their order. -/
theorem Used.watched [Crypto] {net : Network} {o : Owner} {w : Wallet} (hw : Used net o w)
    (hroom : w.keys.length + lookahead.toNat < 2 ^ 32) :
    w.watchedAddresses =
        (List.range (w.nextIndex.toNat + lookahead.toNat)).map
          (fun i => o.keyAddr (UInt32.ofNat i)) ∧
      ∀ a, w.isMine a = true ↔ a ∈ w.watchedAddresses := by
  obtain ⟨hd, ha⟩ := hw.derived
  refine ⟨?_, fun a => hd.ring.isMine_iff⟩
  rw [← hd.ahead hroom]
  refine List.ext_getElem? fun i => ?_
  rw [watchedAddresses, List.getElem?_map, List.getElem?_map]
  cases hk : w.keys[i]? with
  | none =>
      rw [List.getElem?_eq_none (by
        rw [List.length_range]
        exact List.getElem?_eq_none_iff.mp hk)]
      rfl
  | some k =>
      obtain ⟨hlt, -⟩ := List.getElem?_eq_some_iff.mp hk
      rw [List.getElem?_range hlt, Option.map_some, Option.map_some, (hd.ring.key i k hk).2, ha]

end Wallet

/-! ## A seed and a payment to it -/

namespace Wallet

theorem create_some (network : Network) (keyAddr : UInt32 → Hash256) :
    ∃ w, create network keyAddr = some w := by
  have hlen : (deriveUntil (0 + 1 + lookahead)
      (deriveUntil lookahead { network, keyAddr })).keys.length = 21 := by
    rw [deriveUntil_length, deriveUntil_length]
    rfl
  rw [create, issueKey]
  simp only [deriveUntil_nextIndex]
  rw [List.getElem?_eq_getElem (by rw [hlen]; decide)]
  exact ⟨_, rfl⟩

attribute [local instance] stampCrypto

/-- The public key is the index. -/
def seedOwner : Owner where
  mnemonic := []
  passphrase := []
  keyPair := fun i =>
    ⟨leBytes falconPkBytes i.toNat, List.replicate falconSkBytes 0, leBytes_length _ _,
      List.length_replicate⟩
  birthHeight := 0
  contacts := []

theorem seedOwner_keyAddr (i : UInt32) : seedOwner.keyAddr i = BitVec.ofNat 256 i.toNat := by
  show BitVec.ofNat 256 (ofLeBytes (leBytes falconPkBytes i.toNat)) = _
  have hlt : i.toNat < 256 ^ falconPkBytes :=
    Nat.lt_of_lt_of_le i.toNat_lt (Nat.pow_le_pow_right (n := 256) (i := 4) (by decide) (by decide))
  rw [ofLeBytes_leBytes, Nat.mod_eq_of_lt hlt]

def seedWallet : Wallet :=
  (create .regtest seedOwner.keyAddr).getD { keyAddr := seedOwner.keyAddr }

/-- A payment to the key of index 9, to one within reach of that only, and to one
out of reach. -/
def seedBlocks : List Block :=
  [{ txs := [{ outs := [⟨5, 0, 9⟩, ⟨1, 0, 28⟩, ⟨1, 0, 99⟩] }] }]

/-- The outpoints of that. -/
def seedOutPoint (n : UInt32) : OutPoint := ⟨((seedBlocks.flatMap Block.txs).headD {}).txid, n⟩

theorem seedWallet_used : Used .regtest seedOwner seedWallet := by
  obtain ⟨w, hw⟩ := create_some .regtest seedOwner.keyAddr
  have he : seedWallet = w := by
    rw [seedWallet, hw]
    rfl
  rw [he]
  exact .created hw

theorem seedBlocks_withinGap : WithinGap seedOwner.keyAddr seedWallet.nextIndex.toNat
    ((seedBlocks.flatMap Block.txs).flatMap outputsOf) (seedOutPoint 1) 28 := by
  have hnext : seedWallet.nextIndex.toNat = 1 := by decide +kernel
  have houts : (seedBlocks.flatMap Block.txs).flatMap outputsOf =
      [] ++ (seedOutPoint 0, seedOwner.keyAddr 9) :: [] ++
        (seedOutPoint 1, seedOwner.keyAddr 28) :: [(seedOutPoint 2, seedOwner.keyAddr 99)] := by
    rw [seedOwner_keyAddr, seedOwner_keyAddr, seedOwner_keyAddr]
    decide +kernel
  rw [houts, hnext]
  exact .next (.first (by decide)) (by decide)

/-- The wallet has seen the payments. -/
def paidWallet : Wallet := seedWallet.connectAll 0 seedBlocks

theorem connectAll_finds_payments :
    paidWallet.isMine (seedOwner.keyAddr 28) = true ∧
      (28 : UInt32).toNat < paidWallet.nextIndex.toNat ∧
      (seedOutPoint 1 ∈ paidWallet.coins ∨
        ∃ tx ∈ seedBlocks.flatMap Block.txs, seedOutPoint 1 ∈ tx.ins.map TxIn.prev) :=
  connectAll_finds seedWallet_used (by decide) (by decide +kernel) _ _ seedBlocks_withinGap

theorem paidWallet_used : Used .regtest seedOwner paidWallet := seedWallet_used.connectAll 0 _

/-- The wallet has been paid at index 28, and watches what is within the limit of
that. -/
theorem watched_of_payments : paidWallet.nextIndex = 29 ∧
    paidWallet.watchedAddresses = (List.range 49).map
      (fun i => seedOwner.keyAddr (UInt32.ofNat i)) ∧
    ∀ a, paidWallet.isMine a = true ↔ a ∈ paidWallet.watchedAddresses := by
  have hnext : paidWallet.nextIndex = 29 := by decide +kernel
  obtain ⟨hwatched, hmine⟩ := paidWallet_used.watched (by decide +kernel)
  rw [hnext] at hwatched
  exact ⟨hnext, hwatched, hmine⟩

end Wallet

end QuantCore
