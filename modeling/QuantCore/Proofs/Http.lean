import QuantCore.Node.Http

/-!
# What a request can do to the HTTP server

The loop caches the end of the headers and the length; both depend on what has
come only, and do not change as more comes. So a request is served as it stands
at the first round at which it is complete, and what it does there is read off
its headers and the bytes behind them.
-/

namespace QuantCore

open Search

/-! ## The specification -/

/-- The fields of the headers: their lines after the first. -/
def headerFields (headers : Bytes) : List Bytes := (headers.splitOn 10).tail

/-- A text without the blanks around it. -/
def trimmed (s : Bytes) : Bytes := ((s.dropWhile isSpace).reverse.dropWhile isSpace).reverse

/-- What the headers declare as the length of the body: the number in the first
field of that name, nothing but digits, and zero if there is no such field. -/
def declaredLength (headers : Bytes) : Option Nat :=
  match (headerFields headers).find? fun l => textBytes "content-length:" <+: l.map toLower with
  | none => some 0
  | some l =>
      let number := trimmed (l.drop 15)
      if number ≠ [] ∧ digitsOf number = number then some (ofDecimal number) else none

/-- The bytes of a connection, whatever the rounds they come in. -/
def streamed (rounds : List RecvRound) : Bytes :=
  rounds.flatMap fun r => match r.polled with
    | .bytes c => c
    | _ => []

/-- The body is the bytes that follow the first blank line, as many as the
headers declare. -/
def Framed (stream headers body : Bytes) : Prop :=
  find blankLine stream = some headers.length ∧
    (headers ++ blankLine ++ body) <+: stream ∧ declaredLength headers = some body.length

namespace HttpRpcServer

variable {J : Type} [Json J]

/-- The request comes to the call of `Node::rpc`. -/
def Dispatches (s : HttpRpcServer J) (headers body : Bytes) : Prop :=
  s.refusal headers = none ∧ ∃ req call, Json.parse body = some req ∧ s.callOf req = .ok call

/-- No exception leaves the thread, and what is dispatched is framed. -/
def ServesSafely (s : HttpRpcServer J) (rounds : List RecvRound) : Prop :=
  s.serve rounds ≠ some .escaped ∧
    ∀ headers body, recvHttp rounds = some (.request headers body) →
      s.Dispatches headers body → Framed (streamed rounds) headers body

end HttpRpcServer

/-! ## What has come -/

/-- The headers and what has come after them. -/
def headOf (buf : Bytes) : Option (Bytes × Bytes) :=
  (find blankLine buf).map fun e => (buf.take e, buf.drop (e + 4))

/-- The loop goes no further: the length is no number, or all of it has come. -/
def ready (buf : Bytes) : Bool :=
  match headOf buf with
  | none => false
  | some (headers, _) =>
      match contentLength headers with
      | none => true
      | some need => UInt64.ofNat buf.length ≥ UInt64.ofNat headers.length + 4 + need

/-- What has come at each round that the loop would get to if it only received. -/
def looks : Bytes → List RecvRound → List Bytes
  | _, [] => []
  | buf, r :: rounds =>
      match HttpState.polled { buf } r.polled with
      | none => []
      | some s => s.buf :: if r.late then [] else looks s.buf rounds

/-- The headers, and what has come after them, when the loop goes no further. -/
def standing (rounds : List RecvRound) : Option (Bytes × Bytes) :=
  ((looks [] rounds).find? ready).bind headOf

theorem headOf_some {buf headers rest : Bytes} (h : headOf buf = some (headers, rest)) :
    buf = headers ++ blankLine ++ rest ∧ find blankLine buf = some headers.length ∧
      headers = buf.take headers.length ∧ rest = buf.drop (headers.length + 4) := by
  obtain ⟨e, he, heq⟩ := Option.map_eq_some_iff.mp h
  cases heq
  have hlen := find_length he
  have htake : (buf.take e).length = e := List.length_take_of_le (by omega)
  rw [htake]
  exact ⟨find_some he, he, rfl, rfl⟩

theorem headOf_append {buf headers rest : Bytes} (h : headOf buf = some (headers, rest))
    (t : Bytes) : headOf (buf ++ t) = some (headers, rest ++ t) := by
  obtain ⟨e, he, heq⟩ := Option.map_eq_some_iff.mp h
  cases heq
  have hlen : e + 4 ≤ buf.length := find_length he
  rw [headOf, find_append he, Option.map_some, List.take_append_of_le_length (by omega),
    List.drop_append_of_le_length hlen]

namespace HttpState

/-- What is cached is what a search in the buffer would find. -/
def Coherent (s : HttpState) : Prop :=
  match headOf s.buf with
  | none => s.head = none
  | some (headers, _) => ∃ need, contentLength headers = some need ∧ s.head = some (headers, need)

theorem polled_eq (s : HttpState) (p : Polled) :
    s.polled p = (polled { buf := s.buf } p).map fun t => { s with buf := t.buf } := by
  cases p with
  | nothing => rfl
  | closed => rfl
  | bytes c =>
      simp only [polled]
      split
      · rfl
      · rfl

theorem headOf_polled {s t : HttpState} {p : Polled} {headers rest : Bytes}
    (h : s.polled p = some t) (hhead : headOf s.buf = some (headers, rest)) :
    ∃ rest', headOf t.buf = some (headers, rest') := by
  cases p with
  | nothing =>
      cases h
      exact ⟨rest, hhead⟩
  | closed => cases h
  | bytes c =>
      simp only [polled] at h
      split at h
      · cases h
      · cases h
        exact ⟨rest ++ c, headOf_append hhead c⟩

/-- A round searches what has come, whether the headers were cached or not. -/
theorem withHead_eq {s : HttpState} (hs : s.Coherent) {p : Polled} {t : HttpState}
    (h : polled { buf := s.buf } p = some t) :
    withHead { s with buf := t.buf } = match headOf t.buf with
      | none => some { buf := t.buf }
      | some (headers, _) =>
          (contentLength headers).map fun need =>
            { buf := t.buf, head := some (headers, need) } := by
  rw [Coherent] at hs
  cases hhead : headOf s.buf with
  | some x =>
      obtain ⟨headers, rest⟩ := x
      rw [hhead] at hs
      obtain ⟨need, hneed, hcached⟩ := hs
      obtain ⟨rest', hrest⟩ := headOf_polled h hhead
      rw [hrest, withHead, hcached]
      simp only [hneed]
      rfl
  | none =>
      rw [hhead] at hs
      rw [withHead, hs, headOf]
      cases find blankLine t.buf with
      | none => rfl
      | some e =>
          simp only [Option.map_some]
          cases contentLength (t.buf.take e) with
          | none => rfl
          | some need => rfl

theorem complete_eq {buf headers rest : Bytes} {need : UInt64}
    (h : headOf buf = some (headers, rest)) :
    complete { buf, head := some (headers, need) } =
      if UInt64.ofNat buf.length ≥ UInt64.ofNat headers.length + 4 + need then
        some (headers, rest.take need.toNat)
      else none := by
  rw [complete, (headOf_some h).2.2.2]

/-- How the loop ends where it goes no further. -/
def stopped (headers rest : Bytes) : Received :=
  match contentLength headers with
  | none => .threw
  | some need => .request headers (rest.take need.toNat)

theorem recv_eq {s : HttpState} (hs : s.Coherent) (rounds : List RecvRound) :
    match (looks s.buf rounds).find? ready with
    | some buf => ∃ headers rest, headOf buf = some (headers, rest) ∧
        s.recv rounds = some (stopped headers rest)
    | none => s.recv rounds = none ∨ s.recv rounds = some .failed := by
  induction rounds generalizing s with
  | nil => exact .inl rfl
  | cons r rounds ih =>
      rw [looks, recv, polled_eq s]
      cases hpolled : polled { buf := s.buf } r.polled with
      | none => exact .inr rfl
      | some t =>
          simp only [Option.map_some]
          rw [withHead_eq hs hpolled]
          cases hhead : headOf t.buf with
          | none =>
              have hready : ready t.buf = false := by rw [ready, hhead]
              rw [List.find?_cons_of_neg (by rw [hready]; exact Bool.false_ne_true)]
              simp only [complete]
              cases r.late with
              | true =>
                  rw [if_pos rfl, if_pos rfl]
                  exact .inr rfl
              | false =>
                  rw [if_neg Bool.false_ne_true, if_neg Bool.false_ne_true]
                  refine ih (s := { buf := t.buf }) ?_
                  rw [Coherent, hhead]
          | some x =>
              obtain ⟨headers, rest⟩ := x
              cases hneed : contentLength headers with
              | none =>
                  have hready : ready t.buf = true := by rw [ready, hhead]; simp only [hneed]
                  rw [List.find?_cons_of_pos hready]
                  refine ⟨headers, rest, hhead, ?_⟩
                  rw [stopped, hneed]
                  simp only [hneed, Option.map_none]
              | some need =>
                  simp only [hneed, Option.map_some]
                  rw [complete_eq hhead]
                  by_cases henough :
                      UInt64.ofNat t.buf.length ≥ UInt64.ofNat headers.length + 4 + need
                  · have hready : ready t.buf = true := by
                      rw [ready, hhead]
                      simp only [hneed, decide_eq_true henough]
                    rw [List.find?_cons_of_pos hready, if_pos henough]
                    refine ⟨headers, rest, hhead, ?_⟩
                    rw [stopped, hneed]
                  · have hready : ready t.buf = false := by
                      rw [ready, hhead]
                      simp only [hneed, decide_eq_false henough]
                    rw [List.find?_cons_of_neg (by rw [hready]; exact Bool.false_ne_true),
                      if_neg henough]
                    cases r.late with
                    | true =>
                        rw [if_pos rfl]
                        exact .inr rfl
                    | false =>
                        rw [if_neg Bool.false_ne_true]
                        simp only [Bool.false_eq_true, if_false]
                        refine ih (s := { buf := t.buf, head := some (headers, need) }) ?_
                        rw [Coherent, hhead]
                        exact ⟨need, hneed, rfl⟩

end HttpState

/-- What has come is the start of the stream. -/
theorem prefix_of_mem_looks {buf b : Bytes} {rounds : List RecvRound} (h : b ∈ looks buf rounds) :
    b <+: buf ++ streamed rounds := by
  induction rounds generalizing buf with
  | nil => cases h
  | cons r rounds ih =>
      rw [looks] at h
      split at h
      · cases h
      · next s hs =>
          have hbuf : s.buf ++ streamed rounds = buf ++ streamed (r :: rounds) := by
            rw [streamed, streamed, List.flatMap_cons]
            cases hp : r.polled with
            | nothing =>
                rw [hp] at hs
                cases hs
                rfl
            | closed =>
                rw [hp] at hs
                cases hs
            | bytes c =>
                rw [hp, HttpState.polled] at hs
                split at hs
                · cases hs
                · cases hs
                  exact List.append_assoc ..
          rw [← hbuf]
          rcases List.mem_cons.mp h with rfl | h
          · exact List.prefix_append _ _
          · split at h
            · cases h
            · exact ih h

/-- Receiving, read off the request as it stands. -/
theorem recvHttp_eq (rounds : List RecvRound) :
    match standing rounds with
    | some (headers, rest) => recvHttp rounds = some (HttpState.stopped headers rest) ∧
        find blankLine (streamed rounds) = some headers.length ∧
        (headers ++ blankLine ++ rest) <+: streamed rounds
    | none => recvHttp rounds = none ∨ recvHttp rounds = some .failed := by
  have hrecv := HttpState.recv_eq (s := {}) rfl rounds
  rw [standing]
  cases hfind : (looks [] rounds).find? ready with
  | none =>
      rw [hfind] at hrecv
      exact hrecv
  | some buf =>
      rw [hfind] at hrecv
      obtain ⟨headers, rest, hhead, hrecv⟩ := hrecv
      obtain ⟨hbuf, hblank, -⟩ := headOf_some hhead
      obtain ⟨more, hmore⟩ := prefix_of_mem_looks (List.mem_of_find?_eq_some hfind)
      rw [Option.bind_some, hhead]
      refine ⟨hrecv, ?_, more, ?_⟩
      · rw [← List.nil_append (streamed rounds), ← hmore]
        exact find_append hblank more
      · rw [← hbuf]
        exact hmore

namespace HttpRpcServer

variable {J : Type} [Json J]

/-- The length is a number, a body that is JSON is an object, the answer is
UTF-8, and if `Node::rpc` is called the length is the one declared; where the sum
of the lengths passes 64 bits, what has come of the body counts. -/
def OrderlyRequest (s : HttpRpcServer J) (headers rest : Bytes) : Prop :=
  ∃ need, contentLength headers = some need ∧
    (s.refusal headers = none → ∀ req, Json.parse (rest.take need.toNat) = some req →
      ∃ members, Json.members req = .ok members ∧
        (Json.dump (s.response ((members "id").getD Json.null) req)).isSome ∧
        ∀ call, s.callOf req = .ok call →
          declaredLength headers = some (min need.toNat rest.length))

/-- The request is orderly, as it stands when the loop goes no further. -/
def Orderly (s : HttpRpcServer J) (rounds : List RecvRound) : Prop :=
  ∀ r, standing rounds = some r → s.OrderlyRequest r.1 r.2

theorem handle_escaped {s : HttpRpcServer J} {headers body : Bytes} :
    s.handle headers body ≠ .escaped ↔ (s.refusal headers = none →
      ∀ req, Json.parse body = some req → ∃ members, Json.members req = .ok members ∧
        (Json.dump (s.response ((members "id").getD Json.null) req)).isSome) := by
  rw [handle]
  cases s.refusal headers with
  | some x => exact iff_of_true (fun h => by cases h) fun h => by cases h
  | none =>
      simp only [true_implies]
      cases (Json.parse body : Option J) with
      | none => exact iff_of_true (fun h => by cases h) fun req h => by cases h
      | some req =>
          simp only [Option.some.injEq, forall_eq', Json.value]
          cases Json.members req with
          | error e => exact iff_of_false (fun h => h rfl) fun ⟨m, hm, _⟩ => by cases hm
          | ok members =>
              simp only [Except.ok.injEq, exists_eq_left']
              show (match Json.dump (s.response ((members "id").getD Json.null) req) with
                | none => Served.escaped
                | some b => s.reply 200 b) ≠ .escaped ↔ _
              cases Json.dump (s.response ((members "id").getD Json.null) req) with
              | none => exact iff_of_false (fun h => h rfl) fun h => by cases h
              | some b => exact iff_of_true (fun h => by cases h) rfl

/-- A connection is served safely exactly if its request is orderly. -/
theorem serves_safely (s : HttpRpcServer J) (rounds : List RecvRound) :
    s.ServesSafely rounds ↔ s.Orderly rounds := by
  have hrecv := recvHttp_eq rounds
  rw [ServesSafely, serve, Orderly]
  cases hstand : standing rounds with
  | none =>
      rw [hstand] at hrecv
      refine iff_of_true ⟨?_, fun headers body h => ?_⟩ fun r h => by cases h
      · rcases hrecv with hnone | hfailed
        · rw [hnone]
          exact fun h => by cases h
        · rw [hfailed]
          exact fun h => by cases h
      · rcases hrecv with hnone | hfailed
        · cases hnone.symm.trans h
        · cases hfailed.symm.trans h
  | some r =>
      obtain ⟨headers, rest⟩ := r
      rw [hstand] at hrecv
      obtain ⟨hrecv, hblank, hprefix⟩ := hrecv
      simp only [Option.some.injEq, forall_eq']
      rw [hrecv, HttpState.stopped, OrderlyRequest]
      cases hneed : contentLength headers with
      | none =>
          refine iff_of_false (fun h => h.1 rfl) ?_
          rintro ⟨need, hn, -⟩
          cases hn
      | some need =>
          have hsafe : s.handle headers (rest.take need.toNat) ≠ .escaped ↔ _ := handle_escaped
          have hframed : Framed (streamed rounds) headers (rest.take need.toNat) ↔
              declaredLength headers = some (min need.toNat rest.length) := by
            rw [Framed, List.length_take]
            refine ⟨fun h => h.2.2, fun h => ⟨hblank, ?_, h⟩⟩
            refine List.IsPrefix.trans ?_ hprefix
            exact (List.prefix_append_right_inj _).mpr (List.take_prefix _ _)
          have hstep : (some (s.handle headers (rest.take need.toNat)) ≠ some .escaped ∧
              ∀ headers' body, some (Received.request headers (rest.take need.toNat)) =
                some (.request headers' body) → s.Dispatches headers' body →
                  Framed (streamed rounds) headers' body) ↔
              (s.handle headers (rest.take need.toNat) ≠ .escaped ∧
                (s.Dispatches headers (rest.take need.toNat) →
                  declaredLength headers = some (min need.toNat rest.length))) := by
            rw [← hframed]
            simp
          refine hstep.trans ?_
          rw [hsafe, Dispatches]
          constructor
          · rintro ⟨hobj, hlen⟩
            refine ⟨need, rfl, fun hadm req hreq => ?_⟩
            obtain ⟨members, hmem, hdump⟩ := hobj hadm req hreq
            exact ⟨members, hmem, hdump, fun call hcall => hlen ⟨hadm, req, call, hreq, hcall⟩⟩
          · rintro ⟨need', hn, hall⟩
            cases hn
            refine ⟨fun hadm req hreq => ?_, fun ⟨hadm, req, call, hreq, hcall⟩ => ?_⟩
            · obtain ⟨members, hmem, hdump, -⟩ := hall hadm req hreq
              exact ⟨members, hmem, hdump⟩
            · obtain ⟨members, hmem, hdump, hlen⟩ := hall hadm req hreq
              exact hlen call hcall

end HttpRpcServer

/-! ## Requests that end the process -/

/-- The texts `1` and an empty object, and what else there is. -/
inductive TinyJson where
  | one
  | empty
  | other
deriving DecidableEq, Repr

instance : Json TinyJson where
  parse := fun b =>
    if b = textBytes "1" then some .one
    else if b = textBytes "\x7b\x7d" then some .empty else none
  null := .other
  array := .other
  string := fun _ => .other
  object := fun _ => .other
  members := fun j =>
    if j = .empty then .ok fun _ => none
    else .error (textBytes "[json.exception.type_error.306] cannot use value() with number")
  text := fun _ => .error (textBytes "[json.exception.type_error.302] type must be string")
  dump := fun j => some (if j = .one then textBytes "1" else textBytes "\x7b\x7d")

def localServer : HttpRpcServer TinyJson :=
  ⟨false, textBytes "secret", fun _ _ => .error (textBytes "unknown method")⟩

/-- A request with a text for its length and a body, in one piece. -/
def requestOf (length body : String) : List RecvRound :=
  [⟨.bytes (textBytes ("POST / HTTP/1.1\r\nAuthorization: Bearer secret\r\nContent-Length: " ++
    length ++ "\r\n\r\n" ++ body)), false⟩]

/-- A length that is no number and a body that is no object end the process; and
a length just below 2^64 is met by what has come. -/
theorem requests_unsafe :
    localServer.serve (requestOf "x" "") = some .escaped ∧
    localServer.serve (requestOf "1" "1") = some .escaped ∧
    ¬ localServer.ServesSafely (requestOf "x" "") ∧
    ¬ localServer.ServesSafely (requestOf "1" "1") ∧
    ¬ localServer.ServesSafely (requestOf "18446744073709551615" "\x7b\x7d") := by
  have hlength : localServer.serve (requestOf "x" "") = some .escaped := by decide +kernel
  have hobject : localServer.serve (requestOf "1" "1") = some .escaped := by decide +kernel
  refine ⟨hlength, hobject, fun h => h.1 hlength, fun h => h.1 hobject, fun h => ?_⟩
  let headers := textBytes ("POST / HTTP/1.1\r\nAuthorization: Bearer secret\r\n" ++
    "Content-Length: 18446744073709551615")
  have hrecv : recvHttp (requestOf "18446744073709551615" "\x7b\x7d") =
      some (.request headers (textBytes "\x7b\x7d")) := by decide +kernel
  have hadmitted : localServer.refusal headers = none := by decide +kernel
  have hparse : Json.parse (textBytes "\x7b\x7d") = some TinyJson.empty := by decide +kernel
  have hframed := h.2 _ _ hrecv ⟨hadmitted, _, ([], .other), hparse, rfl⟩
  have hdeclared : declaredLength headers ≠ some (textBytes "\x7b\x7d").length := by
    decide +kernel
  exact hdeclared hframed.2.2

end QuantCore
