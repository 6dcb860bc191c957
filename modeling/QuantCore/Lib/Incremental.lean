import Mathlib.Data.List.Basic

/-!
# Parsing a stream that arrives in pieces

A reader keeps the bytes it was fed and, when polled, answers with the first
item of its buffer, with an error, or with nothing if it has too little. How a
stream was cut and when the reader was polled should not show. That is so if an
answer, once given, does not depend on bytes that come later: what the polls of
a run have answered, and what is answered when the rest is polled out, is what
polling the whole stream at once answers.

An error stays. The buffer is left as it is, so every later poll repeats it; it
counts once.
-/

namespace Incremental

variable {β α ε : Type}

/-- What a poll answers. -/
inductive Poll (β α ε : Type)
  | more
  | item (a : α) (rest : List β)
  | fail (e : ε)
deriving DecidableEq, Repr

/-- Later bytes do not change an answer, and an item takes some bytes with it. -/
structure Stable (next : List β → Poll β α ε) : Prop where
  item : ∀ {bs a rest}, next bs = .item a rest →
    ∀ later, next (bs ++ later) = .item a (rest ++ later)
  fail : ∀ {bs e}, next bs = .fail e → ∀ later, next (bs ++ later) = .fail e
  shorter : ∀ {bs a rest}, next bs = .item a rest → rest.length < bs.length

/-- What happens to a reader: bytes come in, or it is polled. -/
inductive Event (β : Type)
  | feed (chunk : List β)
  | poll
deriving DecidableEq, Repr

/-- The bytes that came in. -/
def fed : List (Event β) → List β
  | [] => []
  | .feed chunk :: es => chunk ++ fed es
  | .poll :: es => fed es

/-- The answers of a run, polls without one left out, and the buffer after it. -/
def run (next : List β → Poll β α ε) : List β → List (Event β) → List (Except ε α) × List β
  | buf, [] => ([], buf)
  | buf, .feed chunk :: es => run next (buf ++ chunk) es
  | buf, .poll :: es =>
      match next buf with
      | .more => run next buf es
      | .item a rest => let r := run next rest es; (.ok a :: r.1, r.2)
      | .fail e => let r := run next buf es; (.error e :: r.1, r.2)

/-- Poll until there is no item, at most `n` times. -/
def drainLoop (next : List β → Poll β α ε) : Nat → List β → List (Except ε α) × List β
  | 0, buf => ([], buf)
  | n + 1, buf =>
      match next buf with
      | .more => ([], buf)
      | .item a rest => let r := drainLoop next n rest; (.ok a :: r.1, r.2)
      | .fail e => ([.error e], buf)

/-- Poll until there is no item. -/
def drain (next : List β → Poll β α ε) (buf : List β) : List (Except ε α) × List β :=
  drainLoop next (buf.length + 1) buf

/-- The answers up to the first error, which later polls only repeat. -/
def upToError : List (Except ε α) → List (Except ε α)
  | [] => []
  | .ok a :: l => .ok a :: upToError l
  | .error e :: _ => [.error e]

/-- The answers of a run that is polled out at its end, and the buffer then. -/
def outcome (next : List β → Poll β α ε) (es : List (Event β)) :
    List (Except ε α) × List β :=
  let r := run next [] es
  let d := drain next r.2
  (upToError (r.1 ++ d.1), d.2)

/-! ## Polling out -/

section Drain

variable {next : List β → Poll β α ε} (hs : Stable next)

theorem drain_more {buf : List β} (h : next buf = .more) : drain next buf = ([], buf) := by
  rw [drain, drainLoop, h]

theorem drain_fail {buf : List β} {e : ε} (h : next buf = .fail e) :
    drain next buf = ([.error e], buf) := by
  rw [drain, drainLoop, h]

include hs

/-- As many polls as there are bytes are enough. -/
theorem drainLoop_enough {n : Nat} {buf : List β} (h : buf.length < n) :
    drainLoop next n buf = drain next buf := by
  induction n using Nat.strongRecOn generalizing buf with
  | _ n ih =>
      obtain ⟨m, rfl⟩ : ∃ m, n = m + 1 := ⟨n - 1, by omega⟩
      rw [drain, drainLoop, drainLoop]
      split
      · rfl
      · next a rest hnext =>
          have hlt := hs.shorter hnext
          rw [ih m (by omega) (by omega)]
          rcases Nat.lt_or_ge buf.length m with hm | hm
          · rw [ih buf.length (by omega) hlt]
          · rw [show buf.length = m by omega, ih m (by omega) (by omega)]
      · rfl

theorem drain_item {buf rest : List β} {a : α} (h : next buf = .item a rest) :
    drain next buf = (.ok a :: (drain next rest).1, (drain next rest).2) := by
  rw [drain, drainLoop, h]
  simp only [drainLoop_enough hs (hs.shorter h)]

/-- Nothing follows an error. -/
theorem upToError_drain (buf : List β) :
    upToError (drain next buf).1 = (drain next buf).1 := by
  induction hn : buf.length using Nat.strongRecOn generalizing buf with
  | _ n ih =>
      cases hnext : next buf with
      | more => rw [drain_more hnext, upToError]
      | fail e => rw [drain_fail hnext, upToError]
      | item a rest =>
          rw [drain_item hs hnext, upToError,
            ih rest.length (hn ▸ hs.shorter hnext) rest rfl]

end Drain

/-! ## Runs -/

section Runs

variable {next : List β → Poll β α ε} (hs : Stable next)

include hs

/-- A run from a buffer, polled out, answers what polling out the buffer and all
that came after it answers. -/
theorem run_drain (es : List (Event β)) (buf : List β) :
    upToError ((run next buf es).1 ++ (drain next (run next buf es).2).1) =
        (drain next (buf ++ fed es)).1 ∧
      (drain next (run next buf es).2).2 = (drain next (buf ++ fed es)).2 := by
  induction es generalizing buf with
  | nil =>
      rw [run, fed, List.nil_append, List.append_nil]
      exact ⟨upToError_drain hs buf, rfl⟩
  | cons e es ih =>
      cases e with
      | feed chunk =>
          rw [run, fed, ← List.append_assoc]
          exact ih (buf ++ chunk)
      | poll =>
          rw [run, fed]
          split
          · exact ih buf
          · next a rest hnext =>
              rw [drain_item hs (hs.item hnext (fed es)), List.cons_append, upToError]
              obtain ⟨hout, hbuf⟩ := ih rest
              exact ⟨by rw [hout], hbuf⟩
          · next e hnext =>
              rw [List.cons_append, upToError]
              refine ⟨?_, (ih buf).2⟩
              rw [drain_fail (hs.fail hnext (fed es))]

/-- Nothing but the bytes decides what a reader answers. -/
theorem outcome_eq_drain (es : List (Event β)) : outcome next es = drain next (fed es) := by
  obtain ⟨hout, hbuf⟩ := run_drain hs es []
  rw [outcome]
  simp only [hout, hbuf, List.nil_append]

theorem outcome_segmentation {es es' : List (Event β)} (h : fed es = fed es') :
    outcome next es = outcome next es' := by
  rw [outcome_eq_drain hs, outcome_eq_drain hs, h]

end Runs

/-- Where no error is left after the cut, there was none before it. -/
theorem upToError_ok {l : List (Except ε α)} {as : List α}
    (h : upToError l = as.map Except.ok) : l = as.map Except.ok := by
  induction l generalizing as with
  | nil => exact h
  | cons x l ih =>
      cases as with
      | nil => cases x <;> cases h
      | cons a as =>
          cases x with
          | error e => cases h
          | ok b =>
              rw [upToError, List.map_cons, List.cons.injEq] at h
              rw [List.map_cons, h.1, ih h.2]

/-- A stream put together from items that each read back is read as those items. -/
theorem drain_flatMap {next : List β → Poll β α ε} (hs : Stable next) {write : α → List β}
    {P : α → Prop} (hread : ∀ a, P a → next (write a) = .item a []) (hend : next [] = .more)
    {as : List α} (hP : ∀ a ∈ as, P a) :
    drain next (as.flatMap write) = (as.map Except.ok, []) := by
  induction as with
  | nil => exact drain_more hend
  | cons a as ih =>
      have hhead := hs.item (hread a (hP a (List.mem_cons_self ..))) (as.flatMap write)
      rw [List.flatMap_cons, drain_item hs hhead, List.nil_append,
        ih fun x hx => hP x (List.mem_cons_of_mem a hx), List.map_cons]

end Incremental
