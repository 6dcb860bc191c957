import QuantCore.Crypto.Instances
import QuantCore.Net.Frame

/-!
# Frames come out as they went in

A frame reads back, and what the reader says of a buffer it says of every longer
one: its tests look at the thirteen bytes of the header, and then at as many
more as the header names. So it does not matter how a stream of frames is cut
or when the reader is polled.
-/

namespace QuantCore

open Incremental

variable [Crypto]

namespace FrameReader

omit [Crypto] in
theorem field_append {buf : Bytes} {i n : Nat} (h : i + n ≤ buf.length) (later : Bytes) :
    field (buf ++ later) i n = field buf i n := by
  rw [field, List.drop_append_of_le_length (by omega),
    List.take_append_of_le_length (by rw [List.length_drop]; omega), field]

omit [Crypto] in
theorem getD_append {buf : Bytes} {i : Nat} (h : i < buf.length) (later : Bytes) :
    (buf ++ later).getD i 0 = buf.getD i 0 := by
  rw [List.getD_eq_getElem?_getD, List.getElem?_append_left h, List.getD_eq_getElem?_getD]

variable {p : ChainParams} {buf : Bytes}

/-- What a message in front of the buffer is. -/
theorem next_item {msg : Cmd × Bytes} {rest : Bytes} (h : next p buf = .item msg rest) :
    field buf 0 4 = p.magic.toList ∧ ofLeBytes (field buf 5 4) ≤ maxMessage ∧
      frameHeader + ofLeBytes (field buf 5 4) ≤ buf.length ∧
      frameCheck (field buf frameHeader (ofLeBytes (field buf 5 4))) = field buf 9 4 ∧
      msg = (⟨buf.getD 4 0⟩, field buf frameHeader (ofLeBytes (field buf 5 4))) ∧
      rest = buf.drop (frameHeader + ofLeBytes (field buf 5 4)) := by
  simp only [next] at h
  split at h
  · cases h
  · split at h
    · cases h
    · next hmagic =>
        split at h
        · cases h
        · next hlarge =>
            split at h
            · cases h
            · next hshort =>
                split at h
                · cases h
                · next hcheck =>
                    cases h
                    exact ⟨not_not.mp hmagic, Nat.not_lt.mp hlarge, Nat.not_lt.mp hshort,
                      not_not.mp hcheck, rfl, rfl⟩

/-- Which errors there are: of the header, or of a whole frame. -/
theorem next_fail {e : String} (h : next p buf = .fail e) :
    frameHeader ≤ buf.length ∧
      (field buf 0 4 ≠ p.magic.toList ∧ e = "bad magic (wrong network?)" ∨
        field buf 0 4 = p.magic.toList ∧ ofLeBytes (field buf 5 4) > maxMessage ∧
          e = "message too large" ∨
        field buf 0 4 = p.magic.toList ∧ ofLeBytes (field buf 5 4) ≤ maxMessage ∧
          frameHeader + ofLeBytes (field buf 5 4) ≤ buf.length ∧
          frameCheck (field buf frameHeader (ofLeBytes (field buf 5 4))) ≠ field buf 9 4 ∧
          e = "bad checksum") := by
  simp only [next] at h
  split at h
  · cases h
  · next hhead =>
      refine ⟨Nat.not_lt.mp hhead, ?_⟩
      split at h
      · next hmagic =>
          cases h
          exact .inl ⟨hmagic, rfl⟩
      · next hmagic =>
          split at h
          · next hlarge =>
              cases h
              exact .inr (.inl ⟨not_not.mp hmagic, hlarge, rfl⟩)
          · next hlarge =>
              split at h
              · cases h
              · next hshort =>
                  split at h
                  · next hcheck =>
                      cases h
                      exact .inr (.inr ⟨not_not.mp hmagic, Nat.not_lt.mp hlarge,
                        Nat.not_lt.mp hshort, hcheck, rfl⟩)
                  · cases h

/-- The tests of `next` in one line, for a buffer that holds a header. -/
theorem next_whole (hhead : frameHeader ≤ buf.length)
    (hmagic : field buf 0 4 = p.magic.toList) (hlen : ofLeBytes (field buf 5 4) ≤ maxMessage)
    (hwhole : frameHeader + ofLeBytes (field buf 5 4) ≤ buf.length) :
    next p buf =
      if frameCheck (field buf frameHeader (ofLeBytes (field buf 5 4))) ≠ field buf 9 4 then
        .fail "bad checksum"
      else
        .item (⟨buf.getD 4 0⟩, field buf frameHeader (ofLeBytes (field buf 5 4)))
          (buf.drop (frameHeader + ofLeBytes (field buf 5 4))) := by
  simp only [next]
  rw [if_neg (Nat.not_lt.mpr hhead), if_neg (not_not.mpr hmagic), if_neg (Nat.not_lt.mpr hlen),
    if_neg (Nat.not_lt.mpr hwhole)]

theorem next_stable (p : ChainParams) : Stable (next p) where
  item := by
    intro buf msg rest h later
    obtain ⟨hmagic, hlen, hwhole, hcheck, rfl, rfl⟩ := next_item h
    have hhead : 13 ≤ buf.length := Nat.le_trans (Nat.le_add_right frameHeader _) hwhole
    have hlong : (buf ++ later).length = buf.length + later.length := List.length_append
    rw [next_whole (by rw [hlong]; exact Nat.le_add_right_of_le hhead)
        (by rw [field_append (by omega), hmagic])
        (by rw [field_append (by omega)]; exact hlen)
        (by rw [field_append (by omega), hlong]; exact Nat.le_add_right_of_le hwhole),
      field_append (i := 5) (by omega), field_append (i := 9) (by omega), field_append hwhole,
      if_neg (not_not.mpr hcheck), getD_append (by omega), List.drop_append_of_le_length hwhole]
  fail := by
    intro buf e h later
    have hlong : (buf ++ later).length = buf.length + later.length := List.length_append
    obtain ⟨hhead, h⟩ := next_fail h
    have hthirteen : 13 ≤ buf.length := hhead
    have hhead' : ¬ (buf ++ later).length < frameHeader := by
      rw [hlong]
      exact Nat.not_lt.mpr (Nat.le_add_right_of_le hhead)
    rcases h with ⟨hmagic, rfl⟩ | ⟨hmagic, hlarge, rfl⟩ | ⟨hmagic, hlen, hwhole, hcheck, rfl⟩
    · rw [next, if_neg hhead', if_pos (by rw [field_append (by omega)]; exact hmagic)]
    · simp only [next]
      rw [if_neg hhead', if_neg (by rw [field_append (by omega)]; exact not_not.mpr hmagic),
        if_pos (by rw [field_append (by omega)]; exact hlarge)]
    · rw [next_whole (Nat.not_lt.mp hhead') (by rw [field_append (by omega), hmagic])
          (by rw [field_append (by omega)]; exact hlen)
          (by rw [field_append (by omega), hlong]; exact Nat.le_add_right_of_le hwhole),
        field_append (i := 5) (by omega), field_append (i := 9) (by omega), field_append hwhole,
        if_pos hcheck]
  shorter := by
    intro buf msg rest h
    obtain ⟨-, -, hwhole, -, -, rfl⟩ := next_item h
    have hpos : 0 < frameHeader := by decide
    rw [List.length_drop]
    omega

/-! ## One frame -/

theorem frameCheck_length (payload : Bytes) : (frameCheck payload).length = 4 := by
  rw [frameCheck, List.length_take, Hash256.bytes_length]
  rfl

theorem next_frameMessage (cmd : Cmd) {payload : Bytes} (h : payload.length ≤ maxMessage) :
    next p (frameMessage p cmd payload) = .item (cmd, payload) [] := by
  have hmagic : p.magic.toList.length = 4 := Vector.length_toList
  have hcheck := frameCheck_length payload
  have hsize : (Writer.u32le (UInt32.ofNat payload.length)).length = 4 := leBytes_length _ _
  have hsmall : maxMessage < 2 ^ 32 := by decide
  have hlen : ofLeBytes (Writer.u32le (UInt32.ofNat payload.length)) = payload.length := by
    rw [Writer.u32le, ofLeBytes_leBytes, UInt32.toNat_ofNat']
    omega
  generalize hframe : frameMessage p cmd payload = buf
  rw [frameMessage] at hframe
  generalize Writer.u32le (UInt32.ofNat payload.length) = size at hframe hsize hlen
  have hparts : field buf 0 4 = p.magic.toList ∧ buf.getD 4 0 = cmd.code ∧
      field buf 5 4 = size ∧ field buf 9 4 = frameCheck payload ∧ buf.drop 13 = payload := by
    generalize p.magic.toList = magic at hframe hmagic
    generalize frameCheck payload = check at hframe hcheck
    match magic, size, check, hmagic, hsize, hcheck with
    | [_, _, _, _], [_, _, _, _], [_, _, _, _], _, _, _ =>
        rw [← hframe]
        exact ⟨rfl, rfl, rfl, rfl, rfl⟩
  obtain ⟨hm, hc, hs, hk, hp⟩ := hparts
  have hbody : field buf frameHeader payload.length = payload := by
    show (buf.drop 13).take payload.length = payload
    rw [hp, List.take_length]
  have hall : buf.length = frameHeader + payload.length := by
    have := congrArg List.length hp
    rw [← hframe] at this ⊢
    simp only [List.length_append, hmagic, hsize, hcheck, Writer.u8, List.length_singleton]
    rfl
  rw [next_whole (by omega) hm (by rw [hs, hlen]; exact h) (by rw [hs, hlen, hall]), hs, hlen,
    hbody, hk, if_neg (not_not.mpr rfl), hc, ← hall, List.drop_length]

theorem next_nil (p : ChainParams) : next p [] = .more := rfl

end FrameReader

/-- Frames written one after the other. -/
def frameMessages (p : ChainParams) (msgs : List (Cmd × Bytes)) : Bytes :=
  msgs.flatMap fun m => frameMessage p m.1 m.2

/-- However a stream of frames is cut and whenever the reader is polled, polling
it out at the end gives the messages in order and leaves nothing; and of any
stream, the answers depend on the bytes alone. -/
theorem framing_segmentation (p : ChainParams) :
    (∀ msgs es, (∀ m ∈ msgs, m.2.length ≤ maxMessage) → fed es = frameMessages p msgs →
      (run (FrameReader.next p) [] es).1 ++
          (drain (FrameReader.next p) (run (FrameReader.next p) [] es).2).1 =
        msgs.map Except.ok ∧
      (drain (FrameReader.next p) (run (FrameReader.next p) [] es).2).2 = []) ∧
    ∀ es es', fed es = fed es' →
      outcome (FrameReader.next p) es = outcome (FrameReader.next p) es' := by
  have hs := FrameReader.next_stable p
  refine ⟨fun msgs es hlen hfed => ?_, fun es es' h => outcome_segmentation hs h⟩
  have hread : drain (FrameReader.next p) (fed es) = (msgs.map Except.ok, []) := by
    rw [hfed]
    exact drain_flatMap hs (P := fun m => m.2.length ≤ maxMessage)
      (fun m hm => FrameReader.next_frameMessage m.1 hm) (FrameReader.next_nil p) hlen
  have hout := (outcome_eq_drain hs es).trans hread
  rw [outcome] at hout
  simp only [Prod.mk.injEq] at hout
  exact ⟨upToError_ok hout.1, hout.2⟩

omit [Crypto] in
/-- A ping whose header arrives in two pieces, with a poll between them. -/
theorem framing_segmentation_ping :
    letI := plainCrypto
    let p := paramsFor .main
    let frame := frameMessage p .ping [1, 2]
    let r := run (FrameReader.next p) [] [.feed (frame.take 5), .poll, .feed (frame.drop 5)]
    r.1 ++ (drain (FrameReader.next p) r.2).1 = [.ok (.ping, [1, 2])] ∧
      (drain (FrameReader.next p) r.2).2 = [] := by
  let _ := plainCrypto
  refine (framing_segmentation (paramsFor .main)).1 [(.ping, [1, 2])] _ (fun m hm => ?_) ?_
  · rw [List.mem_singleton.mp hm]
    decide
  · simp only [fed, frameMessages, List.flatMap_cons, List.flatMap_nil, List.append_nil,
      List.take_append_drop]

end QuantCore
