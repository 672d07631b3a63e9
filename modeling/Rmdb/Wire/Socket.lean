import Rmdb.Wire.Reader

/-!
# Frames on a socket

The socket functions of src/common/wire_protocol.h.  What `read` returns, call after call, is a list of
events; a call that asks for less than has come leaves the rest.  What is read depends only on the bytes
that came before the end (`readExact_eq`), not on how they were cut into packets.  A peer
takes so many bytes and then no more: what it has got is always the front of all that was to be sent
(`Sent.frame`).
-/

namespace Rmdb.Wire

open Rmdb.Lib (Exact bigEndianBytes exact_pure)
open Rmdb.Txn (Bytes)

/-! ## Reading -/

/-- What a call of `read` returns; no bytes at the end of the stream. -/
inductive ReadEvent where
  | data (bs : Bytes)
  | eintr
  | error
deriving DecidableEq, Repr

abbrev Input := List ReadEvent

/-- `read_exact`: `n` bytes, or `none`. -/
def readExact : Nat → Input → Option (Bytes × Input)
  | 0, es => some ([], es)
  | _ + 1, [] => none
  | n + 1, .eintr :: es => readExact (n + 1) es
  | _ + 1, .error :: _ => none
  | n + 1, .data bs :: es =>
      if bs = [] then none
      else if bs.length ≤ n + 1 then (readExact (n + 1 - bs.length) es).map fun p => (bs ++ p.1, p.2)
      else some (bs.take (n + 1), .data (bs.drop (n + 1)) :: es)

structure FrameHeader where
  payloadBytes : Nat
  tag : UInt8
  flags : UInt8
deriving DecidableEq, Repr

def decodeHeader : Read FrameHeader := do
  let payloadBytes ← Read.u32
  let tag ← Read.u8
  let flags ← Read.u8
  let reserved ← Read.u16
  if reserved ≠ 0 then throw (.protocol "nonzero reserved field")
  else pure { payloadBytes, tag, flags }

/-- `none` when the peer has closed. -/
def readFrameHeader (es : Input) : Except Fault (Option (FrameHeader × Input)) :=
  match readExact 8 es with
  | none => .ok none
  | some (hdr, es) =>
      match decodeHeader { data := hdr } with
      | .error e => .error e
      | .ok (h, _) => .ok (some (h, es))

def maxPayloadBytes : Nat := 2 ^ 20

def readPayload (payloadBytes : Nat) (es : Input) : Except Fault (Option (Bytes × Input)) :=
  if maxPayloadBytes < payloadBytes then .error (.protocol "payload exceeds 1 MiB")
  else .ok (readExact payloadBytes es)

/-! ### What has come -/

/-- The bytes before the end of the stream. -/
def arrived : Input → Bytes
  | [] => []
  | .eintr :: es => arrived es
  | .error :: _ => []
  | .data bs :: es => if bs = [] then [] else bs ++ arrived es

theorem arrived_data {bs : Bytes} (hbs : bs ≠ []) (es : Input) : arrived (.data bs :: es) = bs ++ arrived es := if_neg hbs

theorem readExact_eq : ∀ (es : Input) (n : Nat),
    if n ≤ (arrived es).length then
      ∃ es', readExact n es = some ((arrived es).take n, es') ∧ arrived es' = (arrived es).drop n
    else readExact n es = none := by
  intro es
  induction es with
  | nil =>
      intro n
      cases n with
      | zero => exact ⟨[], rfl, rfl⟩
      | succ n => rfl
  | cons ev es ih =>
      intro n
      cases n with
      | zero =>
          rw [if_pos (Nat.zero_le _)]
          exact ⟨ev :: es, by unfold readExact; rfl, rfl⟩
      | succ n =>
          cases ev with
          | eintr => exact ih (n + 1)
          | error => rfl
          | data bs =>
              by_cases hbs : bs = []
              · have hnone : arrived (.data bs :: es) = [] := if_pos hbs
                rw [hnone, if_neg (show ¬n + 1 ≤ ([] : Bytes).length from Nat.not_succ_le_zero n)]
                exact if_pos hbs
              · rw [arrived_data hbs]
                unfold readExact
                rw [if_neg hbs]
                by_cases hlen : bs.length ≤ n + 1
                · have hrest := ih (n + 1 - bs.length)
                  rw [if_pos hlen]
                  by_cases henough : n + 1 - bs.length ≤ (arrived es).length
                  · rw [if_pos henough] at hrest
                    obtain ⟨es', hread, hes'⟩ := hrest
                    rw [if_pos (by rw [List.length_append]; omega)]
                    refine ⟨es', ?_, ?_⟩
                    · rw [hread, Option.map_some, List.take_append, List.take_of_length_le hlen]
                    · rw [hes', List.drop_append, List.drop_eq_nil_of_le hlen, List.nil_append]
                  · rw [if_neg henough] at hrest
                    rw [if_neg (by rw [List.length_append]; omega), hrest]
                    rfl
                · rw [if_neg hlen, if_pos (by rw [List.length_append]; omega)]
                  refine ⟨_, by rw [List.take_append_of_le_length (by omega)], ?_⟩
                  have hdrop : bs.drop (n + 1) ≠ [] := by
                    rw [ne_eq, List.drop_eq_nil_iff]
                    exact hlen
                  rw [arrived_data hdrop, List.drop_append_of_le_length (by omega)]

def FrameHeader.encode (h : FrameHeader) : Bytes := bigEndianBytes 4 h.payloadBytes ++ [h.tag, h.flags, 0, 0]

theorem exact_decodeHeader : Exact At Bad decodeHeader fun h t => h.payloadBytes < 2 ^ 32 ∧ t = h.encode := by
  refine (exact_u32.bind fun payloadBytes _ _ => exact_u8.bind fun tag _ _ => exact_u8.bind fun flags _ _ =>
    exact_u16.bind fun reserved _ _ => Exact.unless Fault.noConfusion fun _ =>
      exact_pure ({ payloadBytes, tag, flags } : FrameHeader)).congr fun h t => ?_
  constructor
  · rintro ⟨payloadBytes, t1, u1, rfl, ⟨hn, rfl⟩, tag, t2, u2, rfl, rfl, flags, t3, u3, rfl, rfl, reserved, t4, u4, rfl,
      ⟨-, rfl⟩, hzero, rfl, rfl⟩
    obtain rfl := not_not.1 hzero
    exact ⟨hn, rfl⟩
  · rintro ⟨hn, rfl⟩
    exact ⟨h.payloadBytes, _, _, rfl, ⟨hn, rfl⟩, h.tag, [h.tag], _, rfl, rfl, h.flags, [h.flags], _, rfl, rfl, 0, [0, 0], [],
      rfl, ⟨by decide, rfl⟩, by decide, rfl, rfl⟩

theorem length_encode (h : FrameHeader) : h.encode.length = 8 := by
  unfold FrameHeader.encode
  rw [List.length_append, Lib.length_bigEndianBytes]
  rfl

theorem decodeHeader_encode (h : FrameHeader) (hsize : h.payloadBytes < 2 ^ 32) :
    ∃ r, decodeHeader { data := h.encode } = .ok (h, r) := by
  have hat : At { data := h.encode } (h.encode ++ []) := by
    rw [List.append_nil]
    exact ⟨by show h.encode.length < 2 ^ 63; rw [length_encode]; decide, Nat.zero_le _, rfl⟩
  obtain ⟨r, hdec, -⟩ := exact_decodeHeader.complete _ h h.encode [] hat ⟨hsize, rfl⟩
  exact ⟨r, hdec⟩

theorem arrived_readExact {es : Input} {bs rest : Bytes} (h : arrived es = bs ++ rest) :
    ∃ es', readExact bs.length es = some (bs, es') ∧ arrived es' = rest := by
  have hread := readExact_eq es bs.length
  rw [h, if_pos (by rw [List.length_append]; omega), List.take_left, List.drop_left] at hread
  exact hread

/-! ## Sending -/

/-- A peer that takes `room` more bytes, and what it has got. -/
structure Socket where
  room : Nat
  out : Bytes := []
deriving DecidableEq, Repr

def writeAllBytes (sock : Socket) (bs : Bytes) : Socket × Bool :=
  (⟨sock.room - bs.length, sock.out ++ bs.take sock.room⟩, decide (bs.length ≤ sock.room))

def sendFrame (sock : Socket) (tag : UInt8) (payload : Bytes) : Socket × Bool :=
  let r := writeAllBytes sock (bigEndianBytes 4 payload.length ++ [tag, 0, 0, 0])
  if !r.2 then r
  else if payload ≠ [] then writeAllBytes r.1 payload
  else r

/-- The bytes of a response. -/
def frameBytes (tag : UInt8) (payload : Bytes) : Bytes :=
  bigEndianBytes 4 payload.length ++ [tag, 0, 0, 0] ++ payload

/-- The peer takes `room` bytes in all, and `bs` were to be sent. -/
structure Sent (room : Nat) (bs : Bytes) (sock : Socket) : Prop where
  out : sock.out = bs.take room
  room : sock.room = room - bs.length

theorem Sent.write {room : Nat} {bs : Bytes} {sock : Socket} (h : Sent room bs sock) (more : Bytes) :
    Sent room (bs ++ more) (writeAllBytes sock more).1 ∧
      ((writeAllBytes sock more).2 = true ↔ more.length ≤ room - bs.length) := by
  refine ⟨⟨?_, ?_⟩, ?_⟩
  · show sock.out ++ more.take sock.room = _
    rw [h.out, h.room, List.take_append]
  · show sock.room - more.length = _
    rw [h.room, List.length_append]
    omega
  · show decide (more.length ≤ sock.room) = true ↔ _
    rw [decide_eq_true_iff, h.room]

theorem Sent.frame {room : Nat} {bs : Bytes} {sock : Socket} (h : Sent room bs sock) (tag : UInt8) (payload : Bytes) :
    Sent room (bs ++ frameBytes tag payload) (sendFrame sock tag payload).1 ∧
      ((sendFrame sock tag payload).2 = true ↔ (bs ++ frameBytes tag payload).length ≤ room) := by
  have hhdr : (bigEndianBytes 4 payload.length ++ [tag, 0, 0, 0]).length = 8 := by
    rw [List.length_append, Lib.length_bigEndianBytes]
    rfl
  obtain ⟨hsent, hok⟩ := h.write (bigEndianBytes 4 payload.length ++ [tag, 0, 0, 0])
  obtain ⟨hsent2, hok2⟩ := hsent.write payload
  rw [hhdr] at hok
  rw [List.length_append, hhdr] at hok2
  have hlen : (bs ++ frameBytes tag payload).length = bs.length + (8 + payload.length) := by
    unfold frameBytes
    rw [List.length_append, List.length_append, hhdr]
  rw [hlen]
  unfold sendFrame
  simp only
  by_cases hfits : 8 ≤ room - bs.length
  · rw [if_neg (by rw [hok.2 hfits]; decide)]
    by_cases hempty : payload = []
    · subst hempty
      rw [if_neg (not_not.2 rfl)]
      unfold frameBytes
      rw [List.append_nil]
      refine ⟨hsent, hok.trans ?_⟩
      rw [List.length_nil]
      omega
    · rw [if_pos hempty]
      unfold frameBytes
      rw [← List.append_assoc]
      refine ⟨hsent2, hok2.trans ?_⟩
      omega
  · have hfail : (writeAllBytes sock (bigEndianBytes 4 payload.length ++ [tag, 0, 0, 0])).2 = false := by
      rw [← Bool.not_eq_true]
      exact fun h => hfits (hok.1 h)
    rw [if_pos (by rw [hfail]; rfl)]
    refine ⟨⟨?_, ?_⟩, ?_⟩
    · have hroom : room ≤ (bs ++ (bigEndianBytes 4 payload.length ++ [tag, 0, 0, 0])).length := by
        rw [List.length_append, hhdr]
        omega
      rw [hsent.out]
      unfold frameBytes
      rw [← List.append_assoc bs _ payload]
      exact (List.take_append_of_le_length hroom).symm
    · rw [hsent.room, hlen, List.length_append, hhdr]
      omega
    · rw [hfail]
      constructor
      · intro h
        cases h
      · intro h
        omega

end Rmdb.Wire
