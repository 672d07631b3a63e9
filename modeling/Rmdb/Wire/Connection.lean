import Rmdb.Wire.Response

/-!
# A connection

`handle_wire_connection` of src/rmdb.cpp: the handshake, then request after request until the peer closes or a
request is refused.  What a streamed statement does and what the end of the connection does to its
transaction are parameters.  The server takes the bytes of a request off the stream one frame after another
(`serveLoop_eq`), so that a client's requests are handled once each and in order however its bytes were cut into
packets, and what is not a whole request is not handled (`requests_served`).  `client_handler` comes here when one `recv`
with `MSG_PEEK` has found the four bytes `RMDB`; where the first packet is shorter it takes the connection for one of
NUL-terminated statements.
-/

namespace Rmdb.Wire

open Rmdb.Lib (bigEndianBytes)
open Rmdb.Txn (Bytes)

def tagExecStream : UInt8 := 0x20
def tagPrepareSet : UInt8 := 0x21
def tagExecBatch : UInt8 := 0x22
def execBatchFlagAutoAbort : UInt8 := 0x01

def Fault.text : Fault → String
  | .protocol msg => msg
  | .overrun => ""

/-- The server `σ` with what belongs to one connection. -/
structure Conn (σ : Type) where
  state : σ
  prepared : Prepared := []
  sock : Socket

/-- What the server does for the connection. -/
structure Handlers (σ : Type) where
  g9 : BitVec 32 → Bytes
  probePrepareSchema : σ → Bytes → Bool → Except String OutCols
  runSqlStatement : σ → Bytes → Bool → SqlRun × σ
  autoAbort : σ → σ
  /-- `handle_exec_stream`, with the exception it ends with. -/
  execStream : σ → Bytes → Socket → Option Fault × σ × Socket
  /-- The transaction of the connection is rolled back or reaped. -/
  endConnection : σ → σ

section

variable {σ : Type} (hs : Handlers σ)

/-- The handler of PREPARE_SET; the dictionary is replaced once the reply is sent. -/
def prepareSet (payload : Bytes) (c : Conn σ) : Option Fault × Conn σ :=
  match handlePrepareSet (hs.probePrepareSchema c.state) payload c.prepared with
  | .error e => (some e, c)
  | .ok (.error msg, _) => (none, { c with sock := (sendFrame c.sock tagError (truncateDiag (textBytes msg))).1 })
  | .ok (.prepareOk outCols, fresh) =>
      let r := sendFrame c.sock tagPrepareOk (prepareOkPayload outCols)
      if r.2 then (none, { c with sock := r.1, prepared := fresh })
      else (some (.protocol "write failed"), { c with sock := r.1 })

def execBatch (payload : Bytes) (c : Conn σ) : Option Fault × Conn σ :=
  match handleExecBatch hs.g9 hs.runSqlStatement hs.autoAbort c.prepared payload c.state with
  | .error e => (some e, c)
  | .ok b =>
      let resp := batchResultPayload b
      if maxPayloadBytes < resp.length then (some (.protocol "BATCH_RESULT exceeds 1 MiB"), { c with state := b.state })
      else
        let r := sendFrame c.sock tagBatchResult resp
        if r.2 then (none, { c with state := b.state, sock := r.1 })
        else (some (.protocol "write failed"), { c with state := b.state, sock := r.1 })

/-- A request, and the exception it ends with. -/
def handleFrame (tag flags : UInt8) (payload : Bytes) (c : Conn σ) : Option Fault × Conn σ :=
  if tag = tagExecStream then
    if flags ≠ 0 then (some (.protocol "EXEC_STREAM flags must be 0"), c)
    else
      let r := hs.execStream c.state payload c.sock
      (r.1, { c with state := r.2.1, sock := r.2.2 })
  else if tag = tagPrepareSet then
    if flags ≠ 0 then (some (.protocol "PREPARE_SET flags must be 0"), c)
    else prepareSet hs payload c
  else if tag = tagExecBatch then
    if flags ≠ execBatchFlagAutoAbort then (some (.protocol "EXEC_BATCH flags must be AUTO_ABORT"), c)
    else execBatch hs payload c
  else (some (.protocol ("unknown request tag " ++ toString tag.toNat)), c)

/-- A `WireProtocolError` is answered before the connection ends. -/
def faultReply (e : Fault) (c : Conn σ) : Conn σ :=
  { c with sock := (sendFrame c.sock tagError (truncateDiag (textBytes e.text))).1 }

/-- The loop over requests, at most `fuel` times round. -/
def serveLoop : Nat → Input → Conn σ → Option (Conn σ)
  | 0, _, _ => none
  | fuel + 1, es, c =>
      match readFrameHeader es with
      | .error _ => some c
      | .ok none => some c
      | .ok (some (h, es)) =>
          match readPayload h.payloadBytes es with
          | .error e => some (faultReply e c)
          | .ok none => some c
          | .ok (some (payload, es)) =>
              match handleFrame hs h.tag h.flags payload c with
              | (some e, c) => some (faultReply e c)
              | (none, c) => serveLoop fuel es c

/-- The eight bytes of the handshake are sent back as they came. -/
def handleWireConnection (fuel : Nat) (es : Input) (c : Conn σ) : Option (Conn σ) :=
  match readExact 8 es with
  | none => some c
  | some (hello, es) =>
      let r := writeAllBytes c.sock hello
      if !r.2 then some { c with sock := r.1 }
      else (serveLoop hs fuel es { c with sock := r.1 }).map fun c => { c with state := hs.endConnection c.state }

/-! ## Requests -/

structure Request where
  tag : UInt8
  flags : UInt8
  payload : Bytes
deriving DecidableEq, Repr

def Request.encode (f : Request) : Bytes := (FrameHeader.encode ⟨f.payload.length, f.tag, f.flags⟩) ++ f.payload

/-- What the stream holds next: a request with the bytes behind it, a header that asks for too much, or nothing
that can be handled: too few bytes, or a header whose reserved field is not zero. -/
inductive Next where
  | request (f : Request) (rest : Bytes)
  | tooLong
  | none
deriving DecidableEq, Repr

def nextRequest (bs : Bytes) : Next :=
  if bs.length < 8 then .none
  else
    match decodeHeader { data := bs.take 8 } with
    | .error _ => .none
    | .ok (h, _) =>
        if maxPayloadBytes < h.payloadBytes then .tooLong
        else if (bs.drop 8).length < h.payloadBytes then .none
        else .request ⟨h.tag, h.flags, (bs.drop 8).take h.payloadBytes⟩ ((bs.drop 8).drop h.payloadBytes)

/-- The requests in the bytes, one after another. -/
def serveBytes : Nat → Bytes → Conn σ → Option (Conn σ)
  | 0, _, _ => none
  | fuel + 1, bs, c =>
      match nextRequest bs with
      | .none => some c
      | .tooLong => some (faultReply (.protocol "payload exceeds 1 MiB") c)
      | .request f rest =>
          match handleFrame hs f.tag f.flags f.payload c with
          | (some e, c) => some (faultReply e c)
          | (none, c) => serveBytes fuel rest c

/-- The requests handled in order, until one is refused, and behind the last one `stop`. -/
def serveAll (stop : Conn σ → Conn σ) : List Request → Conn σ → Conn σ
  | [], c => stop c
  | f :: fs, c =>
      match handleFrame hs f.tag f.flags f.payload c with
      | (some e, c) => faultReply e c
      | (none, c) => serveAll stop fs c

/-- What the server does before bytes that are not a whole request. -/
def stopAt (tail : Bytes) (c : Conn σ) : Conn σ :=
  match nextRequest tail with
  | .tooLong => faultReply (.protocol "payload exceeds 1 MiB") c
  | _ => c

variable {hs}

/-! ## The stream -/

theorem serveLoop_eq : ∀ (fuel : Nat) (es : Input) (c : Conn σ), serveLoop hs fuel es c = serveBytes hs fuel (arrived es) c := by
  intro fuel
  induction fuel with
  | zero => intro es c; rfl
  | succ fuel ih =>
      intro es c
      have hhdr := readExact_eq es 8
      unfold serveLoop serveBytes nextRequest readFrameHeader
      by_cases h8 : (arrived es).length < 8
      · rw [if_neg (by omega)] at hhdr
        rw [if_pos h8, hhdr]
      · rw [if_pos (by omega)] at hhdr
        obtain ⟨es1, hread, hes1⟩ := hhdr
        rw [if_neg h8, hread]
        dsimp only
        cases hdec : decodeHeader { data := (arrived es).take 8 } with
        | error e => rfl
        | ok p =>
            obtain ⟨h, r⟩ := p
            dsimp only
            unfold readPayload
            by_cases hlong : maxPayloadBytes < h.payloadBytes
            · rw [if_pos hlong, if_pos hlong]
            · rw [if_neg hlong, if_neg hlong]
              have hpay := readExact_eq es1 h.payloadBytes
              rw [hes1] at hpay
              by_cases hshort : ((arrived es).drop 8).length < h.payloadBytes
              · rw [if_neg (by omega)] at hpay
                rw [if_pos hshort, hpay]
              · rw [if_pos (by omega)] at hpay
                obtain ⟨es2, hread2, hes2⟩ := hpay
                rw [if_neg hshort, hread2]
                dsimp only
                rw [← hes2]
                cases hhandle : handleFrame hs h.tag h.flags (((arrived es).drop 8).take h.payloadBytes) c with
                | mk fault c' =>
                    cases fault with
                    | some e => rfl
                    | none => exact ih es2 c'

theorem nextRequest_encode {f : Request} (hsize : f.payload.length ≤ maxPayloadBytes) (rest : Bytes) :
    nextRequest (f.encode ++ rest) = .request f rest := by
  have hlen := length_encode ⟨f.payload.length, f.tag, f.flags⟩
  obtain ⟨r, hdec⟩ := decodeHeader_encode ⟨f.payload.length, f.tag, f.flags⟩
    (by unfold maxPayloadBytes at hsize; show f.payload.length < 2 ^ 32; omega)
  unfold Request.encode nextRequest
  rw [List.append_assoc, if_neg (by rw [List.length_append, hlen]; omega), List.take_left' hlen, hdec, List.drop_left' hlen]
  dsimp only
  rw [if_neg (not_lt.2 hsize), if_neg (by rw [List.length_append]; omega), List.take_left, List.drop_left]

theorem nextRequest_eq_request {bs rest : Bytes} {f : Request} (h : nextRequest bs = .request f rest) :
    bs = f.encode ++ rest ∧ f.payload.length ≤ maxPayloadBytes := by
  unfold nextRequest at h
  split at h
  · cases h
  · next hlen =>
      have htake : (bs.take 8).length = 8 := List.length_take_of_le (by omega)
      cases hdec : decodeHeader { data := bs.take 8 } with
      | error e =>
          rw [hdec] at h
          cases h
      | ok p =>
          obtain ⟨hdr, r⟩ := p
          have hat : At { data := bs.take 8 } (bs.take 8) := ⟨by show (bs.take 8).length < 2 ^ 63; omega, Nat.zero_le _, rfl⟩
          obtain ⟨t, u, htu, ⟨-, rfl⟩, -⟩ := exact_decodeHeader.sound _ _ _ _ hat hdec
          have hu : u = [] := by
            have hlens := congrArg List.length htu
            rw [htake, List.length_append, length_encode] at hlens
            exact List.length_eq_zero_iff.1 (by omega)
          rw [hu, List.append_nil] at htu
          rw [hdec] at h
          dsimp only at h
          split at h
          · cases h
          · next hsize =>
              split at h
              · cases h
              · next henough =>
                  cases h
                  have hpay : ((bs.drop 8).take hdr.payloadBytes).length = hdr.payloadBytes := List.length_take_of_le (by omega)
                  refine ⟨?_, by rw [hpay]; omega⟩
                  unfold Request.encode
                  dsimp only
                  rw [hpay, ← htu, List.append_assoc, List.take_append_drop, List.take_append_drop]

/-- The requests in a stream, and behind them what is not a whole request. -/
structure Framed (fs : List Request) (tail bs : Bytes) : Prop where
  bytes : bs = fs.flatMap Request.encode ++ tail
  size : ∀ f ∈ fs, f.payload.length ≤ maxPayloadBytes
  ends : ∀ (f : Request) (rest : Bytes), f.payload.length ≤ maxPayloadBytes → tail ≠ f.encode ++ rest

theorem framed_exists : ∀ (n : Nat) (bs : Bytes), bs.length ≤ n → ∃ fs tail, Framed fs tail bs := by
  intro n
  induction n with
  | zero =>
      intro bs hn
      refine ⟨[], bs, rfl, fun _ h => absurd h List.not_mem_nil, fun f rest _ heq => ?_⟩
      have hlen := congrArg List.length heq
      unfold Request.encode at hlen
      rw [List.length_append, List.length_append, length_encode] at hlen
      omega
  | succ n ih =>
      intro bs hn
      cases hnext : nextRequest bs with
      | request f rest =>
          obtain ⟨rfl, hsize⟩ := nextRequest_eq_request hnext
          have hlen : f.encode.length = 8 + f.payload.length := by
            unfold Request.encode
            rw [List.length_append, length_encode]
          rw [List.length_append] at hn
          obtain ⟨fs, tail, h⟩ := ih rest (by omega)
          refine ⟨f :: fs, tail, ?_, List.forall_mem_cons.2 ⟨hsize, h.size⟩, h.ends⟩
          rw [List.flatMap_cons, List.append_assoc, ← h.bytes]
      | _ =>
          refine ⟨[], bs, rfl, fun _ h => absurd h List.not_mem_nil, fun f rest hsize heq => ?_⟩
          rw [heq, nextRequest_encode hsize] at hnext
          cases hnext

theorem serveBytes_framed {tail : Bytes}
    (htail : ∀ (f : Request) (rest : Bytes), f.payload.length ≤ maxPayloadBytes → tail ≠ f.encode ++ rest) :
    ∀ (fs : List Request) (fuel : Nat) (c : Conn σ), (∀ f ∈ fs, f.payload.length ≤ maxPayloadBytes) → fs.length < fuel →
      serveBytes hs fuel (fs.flatMap Request.encode ++ tail) c = some (serveAll hs (stopAt tail) fs c) := by
  intro fs
  induction fs with
  | nil =>
      intro fuel c _ hfuel
      obtain ⟨fuel, rfl⟩ : ∃ k, fuel = k + 1 := ⟨fuel - 1, by rw [List.length_nil] at hfuel; omega⟩
      unfold serveBytes serveAll stopAt
      rw [List.flatMap_nil, List.nil_append]
      cases hnext : nextRequest tail with
      | request f rest =>
          obtain ⟨heq, hsize⟩ := nextRequest_eq_request hnext
          exact absurd heq (htail f rest hsize)
      | tooLong => rfl
      | none => rfl
  | cons f fs ih =>
      intro fuel c hfs hfuel
      obtain ⟨fuel, rfl⟩ : ∃ k, fuel = k + 1 := ⟨fuel - 1, by rw [List.length_cons] at hfuel; omega⟩
      unfold serveBytes serveAll
      rw [List.flatMap_cons, List.append_assoc, nextRequest_encode (hfs f List.mem_cons_self)]
      dsimp only
      cases hhandle : handleFrame hs f.tag f.flags f.payload c with
      | mk fault c' =>
          cases fault with
          | some e => rfl
          | none => exact ih fuel c' (fun f' hf' => hfs f' (List.mem_cons_of_mem _ hf')) (by rw [List.length_cons] at hfuel; omega)

/-- Every stream behind the handshake is requests and something that is not a whole request.  The requests are handled once each
and in order, up to the first that is refused; what is not a whole request is not handled, and then the connection ends.  How
the bytes were cut into packets makes no difference. -/
theorem requests_served {hello bs : Bytes} (hhello : hello.length = 8) (c : Conn σ) (hroom : 8 ≤ c.sock.room) {es : Input}
    (harr : arrived es = hello ++ bs) :
    (∃ fs tail, Framed fs tail bs) ∧ ∀ fs tail, Framed fs tail bs → ∀ fuel, fs.length < fuel →
      handleWireConnection hs fuel es c = some
        { serveAll hs (stopAt tail) fs { c with sock := (writeAllBytes c.sock hello).1 } with
          state := hs.endConnection (serveAll hs (stopAt tail) fs { c with sock := (writeAllBytes c.sock hello).1 }).state } := by
  refine ⟨framed_exists bs.length bs le_rfl, fun fs tail hframed fuel hfuel => ?_⟩
  obtain ⟨es', hread, hes'⟩ := arrived_readExact harr
  rw [hhello] at hread
  have hwrite : (writeAllBytes c.sock hello).2 = true := by
    show decide (hello.length ≤ c.sock.room) = true
    rw [hhello]
    exact decide_eq_true hroom
  unfold handleWireConnection
  rw [hread]
  dsimp only
  rw [hwrite, if_neg (by decide), serveLoop_eq, hes', hframed.bytes, serveBytes_framed hframed.ends fs fuel _ hframed.size hfuel]
  rfl

end

/-- A server that notes the statements it is given. -/
def noting : Handlers (List Bytes) where
  g9 _ := []
  probePrepareSchema _ _ _ := .ok []
  runSqlStatement log sql _ := (⟨.ok, [], ""⟩, log ++ [sql])
  autoAbort := id
  execStream log sql sock := (none, log ++ [sql], sock)
  endConnection := id

/-- The handshake and a statement in three packets, and a header that asks for too much. -/
theorem requests_served_packets : handleWireConnection noting 2
    [.data [82, 77, 68, 66, 0, 0], .eintr, .data [0, 3, 0, 0, 0, 2, 0x20, 0], .data [0, 0, 97, 98, 255, 0, 0, 0, 0x20, 0, 0, 0]]
      ⟨[], [], ⟨100, []⟩⟩ = some (faultReply (.protocol "payload exceeds 1 MiB") ⟨[[97, 98]], [], ⟨92, [82, 77, 68, 66, 0, 0, 0, 3]⟩⟩) := by
  have harr : arrived [.data [82, 77, 68, 66, 0, 0], .eintr, .data [0, 3, 0, 0, 0, 2, 0x20, 0],
      .data [0, 0, 97, 98, 255, 0, 0, 0, 0x20, 0, 0, 0]] = [82, 77, 68, 66, 0, 0, 0, 3] ++
        (([⟨0x20, 0, [97, 98]⟩] : List Request).flatMap Request.encode ++ [255, 0, 0, 0, 0x20, 0, 0, 0]) := rfl
  have hlong : nextRequest [255, 0, 0, 0, 0x20, 0, 0, 0] = .tooLong := by decide
  have hframed : Framed [⟨0x20, 0, [97, 98]⟩] [255, 0, 0, 0, 0x20, 0, 0, 0]
      (([⟨0x20, 0, [97, 98]⟩] : List Request).flatMap Request.encode ++ [255, 0, 0, 0, 0x20, 0, 0, 0]) := by
    refine ⟨rfl, by decide, fun f rest hsize heq => ?_⟩
    rw [heq, nextRequest_encode hsize] at hlong
    cases hlong
  exact (requests_served rfl ⟨[], [], ⟨100, []⟩⟩ (by decide) harr).2 _ _ hframed 2 (by decide)

end Rmdb.Wire
