import Rmdb.Sql.Pipeline
import Rmdb.Wire.Response

/-!
# A query's result on the wire

From the rows of a query's scans and joins to what a client reads: `generate_select_plan` puts a sort, a
projection and a limit over them, `Portal` (src/portal.h) makes executors of the plan, and `select_from`
(src/execution/execution_manager.cpp) hands every record to a sink, which for a streamed query sends frames.
Whatever the client takes, it has got the front of the whole response; where no frame has failed it reads the
selected columns of the rows, sorted and cut as the query says (`select_received`).
-/

namespace Rmdb.Wire

open Rmdb.Txn (Bytes ColMeta ColType getWord getBytes)
open Rmdb.Query (TabCol Cols Executor ExecError Words)
open Rmdb.Sql (SelectPlan Table answer orderBy projectRow projCols findEntry findSortCols placeCols colBytes)

/-! ## The sink of a stream -/

structure StreamSink where
  sock : Socket
  failed : Bool := false
  sentResult : Bool := false
deriving DecidableEq, Repr

def StreamSink.emit (tag : UInt8) (payload : Bytes) (w : StreamSink) : StreamSink :=
  let r := sendFrame w.sock tag payload
  { w with sock := r.1, failed := w.failed || !r.2 }

def streamSink : WireResultSink StreamSink where
  onMeta cols w := { w with sentResult := true }.emit tagMeta (metaPayload cols)
  onRow cells := StreamSink.emit tagRow (rowPayload cells)
  onEnd n := StreamSink.emit tagResultEnd (endPayload n)
  failed := StreamSink.failed

/-! ## `select_from` -/

def cellOf (c : ColMeta) (row : Bytes) : WireCell :=
  match c.type with
  | .int => .int (getWord row c.offset)
  | .float => .float (getWord row c.offset)
  | .string => .str (Sql.text (getBytes row c.offset c.len))

def cells (cols : Cols) (row : Bytes) : List WireCell := cols.map fun e => cellOf e.2 row

/-- `limit >= 0 && num_rec >= limit`, for the `int` that the limit of the plan is cut to. -/
def limitReached (limit : Option Nat) (numRec : Nat) : Bool :=
  limit.any fun n => decide (0 ≤ (BitVec.ofNat 32 n).toInt) && decide ((BitVec.ofNat 32 n).toInt ≤ numRec)

section SelectFrom

variable {σ ω : Type} (sink : WireResultSink ω) (e : Executor σ)

/-- The loop over the records, at most `fuel` times round. -/
def selectLoop (limit : Option Nat) : Nat → Nat → σ → ω → Option (Nat × ω)
  | 0, _, _, _ => none
  | fuel + 1, numRec, s, w =>
      if e.done s || limitReached limit numRec then some (numRec, w)
      else
        (e.get s).bind fun p =>
          let w := sink.onRow (cells e.cols p.1) w
          if sink.failed w then some (numRec + 1, w)
          else (e.advance p.2).bind fun s => selectLoop limit fuel (numRec + 1) s w

def captions (selCols : List TabCol) (cols : Cols) : List String :=
  if selCols = [] then cols.map fun e => e.2.name else selCols.map TabCol.colName

def metaOf (selCols : List TabCol) (cols : Cols) : OutCols :=
  List.zipWith (fun caption e => (textBytes caption, e.2.type)) (captions selCols cols) cols

def selectFrom (selCols : List TabCol) (limit : Option Nat) (fuel : Nat) (s : σ) (w : ω) : Option ω :=
  (e.start s).bind fun s =>
    (selectLoop sink e limit fuel 0 s (sink.onMeta (metaOf selCols e.cols) w)).map fun r => sink.onEnd r.1 r.2

end SelectFrom

/-! ## `Portal` -/

/-- What `generate_select_plan` puts over the scans and joins of a query. -/
def generateSelectPlan (orders : List (TabCol × Bool)) (selCols : List TabCol) (limit : Option Nat) : SelectPlan :=
  let plan := if orders = [] then .source else SelectPlan.sort .source orders
  let plan := SelectPlan.projection plan selCols
  match limit with
  | none => plan
  | some n => .limit plan n

/-- The columns `Portal::start` looks for. -/
def portalSelCols : SelectPlan → List TabCol
  | .projection _ selCols => selCols
  | .limit p _ => portalSelCols p
  | .sort p _ => portalSelCols p
  | .source => []

/-- The limit `Portal::run` looks for. -/
def portalLimit : SelectPlan → Option Nat
  | .limit _ n => some n
  | .projection p _ => portalLimit p
  | _ => none

/-- `Portal::start` and `Portal::run` for a `SELECT` over the executor `e`. -/
def portalRun {σ ω : Type} (sink : WireResultSink ω) (e : Executor σ) (newRecord : Nat → Bytes) (fuel : Nat) (p : SelectPlan)
    (s : σ) (w : ω) : Except ExecError (Option ω) := do
  let root ← p.convertPlanExecutor e newRecord fuel
  pure (selectFrom sink root (portalSelCols p) (portalLimit p) fuel (p.new s) w)

/-! ## The client -/

/-- A client reads a frame. -/
def clientFrame (es : Input) : Option ((UInt8 × Bytes) × Input) :=
  match readFrameHeader es with
  | .ok (some (h, es)) => (readExact h.payloadBytes es).map fun p => ((h.tag, p.1), p.2)
  | _ => none

/-- The rows up to RESULT_END, and the count it has; at most `fuel` frames. -/
def clientRows (types : List ColType) : Nat → Input → Option (List (List WireCell) × Nat)
  | 0, _ => none
  | fuel + 1, es => do
    let (f, es) ← clientFrame es
    if f.1 = tagRow then do
      let row ← decodePayload (Read.row types) f.2
      let rest ← clientRows types fuel es
      pure (row :: rest.1, rest.2)
    else if f.1 = tagResultEnd then do
      let n ← decodePayload Read.rowCount f.2
      pure ([], n)
    else none

def clientResult (fuel : Nat) (es : Input) : Option (OutCols × List (List WireCell) × Nat) := do
  let (f, es) ← clientFrame es
  if f.1 = tagMeta then do
    let cols ← decodePayload Read.metaCols f.2
    let rest ← clientRows (cols.map Prod.snd) fuel es
    pure (cols, rest)
  else none

/-! ## The loop -/

section Loop

variable {σ ω : Type} {sink : WireResultSink ω} {e : Executor σ} {rows : List Bytes}

/-- The rows go to the sink one after another, until it has failed. -/
def feed (sink : WireResultSink ω) : List (List WireCell) → Nat → ω → Nat × ω
  | [], n, w => (n, w)
  | row :: rows, n, w =>
      let w := sink.onRow row w
      if sink.failed w then (n + 1, w) else feed sink rows (n + 1) w

theorem selectLoop_eq {Live : σ → Prop} {At Fresh : Nat → σ → Prop} (h : e.FollowsOnce rows Live At Fresh) {limit : Option Nat}
    (hlimit : ∀ i < rows.length, limitReached limit i = false) : ∀ (fuel i : Nat) (s : σ) (w : ω), Fresh i s →
      i ≤ rows.length → rows.length - i < fuel →
        selectLoop sink e limit fuel i s w = some (feed sink ((rows.drop i).map (cells e.cols)) i w) := by
  intro fuel
  induction fuel with
  | zero => intro i s w _ _ hfuel; omega
  | succ fuel ih =>
      intro i s w hs hi hfuel
      unfold selectLoop
      rw [h.done i s hi (h.position i s hs)]
      by_cases hend : rows.length ≤ i
      · rw [decide_eq_true hend, Bool.true_or, if_pos rfl, List.drop_eq_nil_of_le hend]
        rfl
      · have hlt : i < rows.length := not_le.1 hend
        obtain ⟨s1, hget, hs1⟩ := h.get i s rows[i] (List.getElem?_eq_getElem hlt) hs
        obtain ⟨s2, hadv, hs2⟩ := h.advance i s1 hlt hs1
        rw [decide_eq_false hend, hlimit i hlt, Bool.or_false, if_neg Bool.false_ne_true, hget, Option.bind_some,
          List.drop_eq_getElem_cons hlt, List.map_cons]
        unfold feed
        dsimp only
        by_cases hfail : sink.failed (sink.onRow (cells e.cols rows[i]) w) = true
        · rw [if_pos hfail, if_pos hfail]
        · rw [if_neg hfail, if_neg hfail, hadv, Option.bind_some, ih (i + 1) s2 _ hs2 hlt (by omega)]

variable (sink) in
theorem selectFrom_eq {s : σ} (h : e.YieldsOnce rows s) {limit : Option Nat}
    (hlimit : ∀ i < rows.length, limitReached limit i = false) {fuel : Nat} (hfuel : rows.length < fuel) (selCols : List TabCol)
    (w : ω) : selectFrom sink e selCols limit fuel s w =
      some (sink.onEnd (feed sink (rows.map (cells e.cols)) 0 (sink.onMeta (metaOf selCols e.cols) w)).1
        (feed sink (rows.map (cells e.cols)) 0 (sink.onMeta (metaOf selCols e.cols) w)).2) := by
  obtain ⟨Live, At, Fresh, hf, hs⟩ := h
  obtain ⟨s0, hstart, h0⟩ := hf.start s hs
  unfold selectFrom
  rw [hstart, Option.bind_some, selectLoop_eq hf hlimit fuel 0 s0 _ h0 (Nat.zero_le _) hfuel, List.drop_zero]
  rfl

end Loop

/-! ## What a stream sends -/

/-- A sink whose peer takes `room` bytes, after `bs` were to be sent. -/
structure Streamed (room : Nat) (bs : Bytes) (w : StreamSink) : Prop where
  sent : Sent room bs w.sock
  failed : w.failed = decide (room < bs.length)

theorem Streamed.emit {room : Nat} {bs : Bytes} {w : StreamSink} (h : Streamed room bs w) (tag : UInt8) (payload : Bytes) :
    Streamed room (bs ++ frameBytes tag payload) (w.emit tag payload) := by
  obtain ⟨hsent, hok⟩ := h.sent.frame tag payload
  refine ⟨hsent, ?_⟩
  show (w.failed || !(sendFrame w.sock tag payload).2) = _
  rw [h.failed, Bool.eq_iff_iff, Bool.or_eq_true, Bool.not_eq_true', ← Bool.not_eq_true, hok, decide_eq_true_iff, decide_eq_true_iff,
    List.length_append]
  omega

/-- After a failure nothing more comes. -/
theorem Streamed.extend {room : Nat} {bs : Bytes} {w : StreamSink} (h : Streamed room bs w) (hfail : w.failed = true) (more : Bytes) :
    Streamed room (bs ++ more) w := by
  have hlt : room < bs.length := by
    rw [h.failed, decide_eq_true_iff] at hfail
    exact hfail
  refine ⟨⟨?_, ?_⟩, ?_⟩
  · rw [h.sent.out, List.take_append_of_le_length hlt.le]
  · rw [h.sent.room, List.length_append]
    omega
  · rw [hfail, eq_comm, decide_eq_true_iff, List.length_append]
    omega

def rowFrames (rows : List (List WireCell)) : Bytes := rows.flatMap fun row => frameBytes tagRow (rowPayload row)

/-- The whole response. -/
def resultBytes (cols : OutCols) (rows : List (List WireCell)) : Bytes :=
  frameBytes tagMeta (metaPayload cols) ++ (rowFrames rows ++ frameBytes tagResultEnd (endPayload rows.length))

theorem feed_streamed {room : Nat} : ∀ (rows : List (List WireCell)) (n : Nat) (bs : Bytes) (w : StreamSink), Streamed room bs w →
    Streamed room (bs ++ rowFrames rows) (feed streamSink rows n w).2 ∧
      ((feed streamSink rows n w).2.failed = false → (feed streamSink rows n w).1 = n + rows.length) := by
  intro rows
  induction rows with
  | nil =>
      intro n bs w h
      unfold rowFrames
      rw [List.flatMap_nil, List.append_nil]
      exact ⟨h, fun _ => rfl⟩
  | cons row rows ih =>
      intro n bs w h
      have hrow := h.emit tagRow (rowPayload row)
      have hframes : bs ++ rowFrames (row :: rows) = bs ++ frameBytes tagRow (rowPayload row) ++ rowFrames rows := by
        unfold rowFrames
        rw [List.flatMap_cons, List.append_assoc]
      unfold feed
      dsimp only
      rw [hframes]
      by_cases hfail : (w.emit tagRow (rowPayload row)).failed = true
      · rw [if_pos (show streamSink.failed (streamSink.onRow row w) = true from hfail)]
        refine ⟨hrow.extend hfail _, fun hok => ?_⟩
        rw [show (streamSink.onRow row w).failed = true from hfail] at hok
        cases hok
      · rw [if_neg (show ¬streamSink.failed (streamSink.onRow row w) = true from hfail)]
        obtain ⟨hrest, hcount⟩ := ih (n + 1) _ _ hrow
        refine ⟨hrest, fun hok => ?_⟩
        rw [List.length_cons]
        refine (hcount hok).trans ?_
        omega

theorem result_streamed {room : Nat} (cols : OutCols) (rows : List (List WireCell)) {w : StreamSink} (h : Streamed room [] w) :
    Streamed room (resultBytes cols rows) (streamSink.onEnd (feed streamSink rows 0 (streamSink.onMeta cols w)).1
      (feed streamSink rows 0 (streamSink.onMeta cols w)).2) := by
  have hmeta : Streamed room (frameBytes tagMeta (metaPayload cols)) (streamSink.onMeta cols w) := by
    have h' : Streamed room [] { w with sentResult := true } := ⟨h.sent, h.failed⟩
    exact h'.emit tagMeta (metaPayload cols)
  obtain ⟨hrows, hcount⟩ := feed_streamed rows 0 _ _ hmeta
  have hend := hrows.emit tagResultEnd (endPayload (feed streamSink rows 0 (streamSink.onMeta cols w)).1)
  unfold resultBytes
  rw [← List.append_assoc]
  by_cases hfail : (feed streamSink rows 0 (streamSink.onMeta cols w)).2.failed = true
  · -- the count of a result that has failed is not sent any more
    have hlt : room < (frameBytes tagMeta (metaPayload cols) ++ rowFrames rows).length := by
      rw [hrows.failed, decide_eq_true_iff] at hfail
      exact hfail
    have hout := hend.sent.out
    rw [List.take_append_of_le_length hlt.le] at hout
    refine ⟨⟨?_, ?_⟩, ?_⟩
    · rw [List.take_append_of_le_length hlt.le]
      exact hout
    · have hroom := hend.sent.room
      rw [List.length_append] at hroom ⊢
      refine hroom.trans ?_
      omega
    · have hfailed := hend.failed
      rw [List.length_append] at hfailed ⊢
      refine hfailed.trans ?_
      rw [decide_eq_true (by omega), decide_eq_true (by omega)]
  · rw [hcount (Bool.eq_false_iff.2 hfail), Nat.zero_add] at hend
    have hn : (feed streamSink rows 0 (streamSink.onMeta cols w)).1 = rows.length := by
      rw [hcount (Bool.eq_false_iff.2 hfail), Nat.zero_add]
    rw [hn]
    exact hend

/-! ## What the client reads -/

theorem readFrameHeader_encode {es : Input} {h : FrameHeader} {rest : Bytes} (hsize : h.payloadBytes < 2 ^ 32)
    (harr : arrived es = h.encode ++ rest) :
    ∃ es', readFrameHeader es = .ok (some (h, es')) ∧ arrived es' = rest := by
  obtain ⟨es', hread, hes'⟩ := arrived_readExact harr
  obtain ⟨r, hdec⟩ := decodeHeader_encode h hsize
  rw [length_encode] at hread
  refine ⟨es', ?_, hes'⟩
  unfold readFrameHeader
  rw [hread]
  dsimp only
  rw [hdec]

theorem clientFrame_frame {es : Input} {tag : UInt8} {payload rest : Bytes} (hsize : payload.length < 2 ^ 32)
    (h : arrived es = frameBytes tag payload ++ rest) :
    ∃ es', clientFrame es = some ((tag, payload), es') ∧ arrived es' = rest := by
  have hbytes : frameBytes tag payload ++ rest =
      (FrameHeader.encode ⟨payload.length, tag, 0⟩) ++ (payload ++ rest) := by
    unfold frameBytes FrameHeader.encode
    rw [List.append_assoc]
  rw [hbytes] at h
  obtain ⟨es1, hhdr, hes1⟩ := readFrameHeader_encode (h := ⟨payload.length, tag, 0⟩) hsize h
  obtain ⟨es2, hread, hes2⟩ := arrived_readExact hes1
  refine ⟨es2, ?_, hes2⟩
  unfold clientFrame
  rw [hhdr]
  dsimp only
  rw [hread]
  rfl

/-- The columns, the rows and their number fit the fields of the frames. -/
structure ResultFits (cols : OutCols) (rows : List (List WireCell)) : Prop where
  colsFit : ColsFit cols
  metaSize : (metaPayload cols).length < 2 ^ 32
  rowsFit : ∀ row ∈ rows, List.Forall₂ CellOk (cols.map Prod.snd) row ∧ (rowPayload row).length < 2 ^ 32
  count : rows.length < 2 ^ 64

theorem clientRows_rowFrames {types : List ColType} {n : Nat} (hn : n < 2 ^ 64) : ∀ (rows : List (List WireCell)) (fuel : Nat) (es : Input),
    (∀ row ∈ rows, List.Forall₂ CellOk types row ∧ (rowPayload row).length < 2 ^ 32) → rows.length < fuel →
      arrived es = rowFrames rows ++ frameBytes tagResultEnd (endPayload n) → clientRows types fuel es = some (rows, n) := by
  have hend8 : ∀ n, (endPayload n).length = 8 := fun n => Lib.length_bigEndianBytes 8 n
  intro rows
  induction rows with
  | nil =>
      intro fuel es _ hfuel harr
      obtain ⟨fuel, rfl⟩ : ∃ k, fuel = k + 1 := ⟨fuel - 1, by rw [List.length_nil] at hfuel; omega⟩
      rw [show rowFrames [] = [] from rfl, List.nil_append, ← List.append_nil (frameBytes _ _)] at harr
      obtain ⟨es', hframe, -⟩ := clientFrame_frame (by rw [hend8]; decide) harr
      have hcount : decodePayload Read.rowCount (endPayload n) = some n :=
        decodePayload_of_exact exact_rowCount (by rw [hend8]; decide) ⟨hn, rfl⟩
      unfold clientRows
      simp only [hframe, Option.bind_eq_bind, Option.bind_some]
      rw [if_neg (by decide), if_pos trivial, hcount]
      rfl
  | cons row rows ih =>
      intro fuel es hrows hfuel harr
      obtain ⟨fuel, rfl⟩ : ∃ k, fuel = k + 1 := ⟨fuel - 1, by rw [List.length_cons] at hfuel; omega⟩
      obtain ⟨hrow, hsize⟩ := hrows row List.mem_cons_self
      rw [show rowFrames (row :: rows) = frameBytes tagRow (rowPayload row) ++ rowFrames rows from rfl, List.append_assoc] at harr
      obtain ⟨es', hframe, harr'⟩ := clientFrame_frame hsize harr
      have hdec : decodePayload (Read.row types) (rowPayload row) = some row :=
        decodePayload_of_exact (exact_row types) (by omega) ⟨hrow, rfl⟩
      have hrest := ih fuel es' (fun r hr => hrows r (List.mem_cons_of_mem _ hr)) (by rw [List.length_cons] at hfuel; omega) harr'
      unfold clientRows
      simp only [hframe, Option.bind_eq_bind, Option.bind_some]
      rw [if_pos trivial, hdec, Option.bind_some, hrest]
      rfl

theorem clientResult_resultBytes {cols : OutCols} {rows : List (List WireCell)} (h : ResultFits cols rows) {fuel : Nat}
    (hfuel : rows.length < fuel) {es : Input} (harr : arrived es = resultBytes cols rows) :
    clientResult fuel es = some (cols, rows, rows.length) := by
  unfold resultBytes at harr
  obtain ⟨es', hframe, harr'⟩ := clientFrame_frame h.metaSize harr
  have hdec : decodePayload Read.metaCols (metaPayload cols) = some cols :=
    decodePayload_of_exact exact_metaCols (by have := h.metaSize; omega) ⟨h.colsFit, rfl⟩
  have hrest := clientRows_rowFrames h.count rows fuel es' h.rowsFit hfuel harr'
  unfold clientResult
  simp only [hframe, Option.bind_eq_bind, Option.bind_some]
  rw [if_pos trivial, hdec, Option.bind_some, hrest]
  rfl

/-! ## The whole way -/

/-- A projected record has the cells of the columns it was made from. -/
theorem cells_projCols (sel : List ColMeta) (row : Bytes) (hfit : ∀ c ∈ sel, c.offset + c.len ≤ row.length)
    (hwords : ∀ c ∈ sel, Words c) : ∀ (pre : Bytes), (placeCols pre.length sel).map (fun c => cellOf c (pre ++ projectRow sel row)) =
      sel.map fun c => cellOf c row := by
  induction sel with
  | nil => intro pre; rfl
  | cons c sel ih =>
      intro pre
      have hc := hfit c List.mem_cons_self
      have hfield : (colBytes c row).length = c.len := by
        unfold Sql.colBytes getBytes
        rw [List.length_take, List.length_drop]
        omega
      have hplen : (pre ++ colBytes c row).length = pre.length + c.len := by
        rw [List.length_append, hfield]
      have hrow : pre ++ projectRow (c :: sel) row = pre ++ (colBytes c row ++ projectRow sel row) := rfl
      have htail := ih (fun c' hc' => hfit c' (List.mem_cons_of_mem _ hc')) (fun c' hc' => hwords c' (List.mem_cons_of_mem _ hc'))
        (pre ++ colBytes c row)
      rw [hplen, List.append_assoc] at htail
      rw [placeCols, List.map_cons, List.map_cons, hrow, htail]
      refine congrArg (· :: _) ?_
      have hmid : getBytes (pre ++ (colBytes c row ++ projectRow sel row)) pre.length c.len = colBytes c row := by
        rw [← hfield]
        exact Sql.getBytes_mid _ _ _
      have hword : c.type ≠ .string → getWord (pre ++ (colBytes c row ++ projectRow sel row)) pre.length = getWord row c.offset := by
        intro htype
        have h4 := hwords c List.mem_cons_self htype
        calc getWord (pre ++ (colBytes c row ++ projectRow sel row)) pre.length
          _ = getWord (getBytes (pre ++ (colBytes c row ++ projectRow sel row)) pre.length c.len) 0 :=
              (Txn.getWord_getBytes h4.ge).symm
          _ = getWord (colBytes c row) 0 := by rw [hmid]
          _ = getWord row c.offset := Sql.getWord_colBytes h4.ge row
      unfold cellOf
      dsimp only
      cases htype : c.type with
      | int => exact congrArg Sql.Value.int (hword (by rw [htype]; decide))
      | float => exact congrArg Sql.Value.float (hword (by rw [htype]; decide))
      | string => exact congrArg (fun b => Sql.Value.str (Sql.text b)) hmid

/-- What a client should see: names and types of the selected columns, and their cells in each row. -/
def selectedCols (sel : Cols) : OutCols := sel.map fun c => (textBytes c.2.name, c.2.type)
def selectedRows (keys : Sql.SortCols) (sel : Cols) (limit : Option Nat) (rows : List Bytes) : List (List WireCell) :=
  let out := (orderBy keys rows).map (cells sel)
  match limit with
  | none => out
  | some n => out.take n

theorem found_names {cols : Cols} {selCols : List TabCol} {sel : Cols} (h : selCols.mapM (findEntry cols) = .ok sel) :
    List.Forall₂ (fun c x => x ∈ cols ∧ x.2.name = c.colName) selCols sel := by
  induction selCols generalizing sel with
  | nil =>
      rw [List.mapM_nil] at h
      cases h
      exact .nil
  | cons c selCols ih =>
      rw [List.mapM_cons] at h
      cases hc : findEntry cols c with
      | error err =>
          rw [hc] at h
          cases h
      | ok x =>
          cases hrest : selCols.mapM (findEntry cols) with
          | error err =>
              rw [hc, hrest] at h
              cases h
          | ok xs =>
              rw [hc, hrest] at h
              cases h
              refine .cons ⟨Sql.mem_of_findEntry hc, ?_⟩ (ih hrest)
              unfold Sql.findEntry at hc
              split at hc
              · next y hy =>
                  cases hc
                  have hp := List.find?_some hy
                  rw [Bool.and_eq_true, decide_eq_true_iff] at hp
                  exact hp.1
              · cases hc

theorem placeCols_zip {α : Type} (f : ColMeta → α) (hf : ∀ c off, f { c with offset := off } = f c) :
    ∀ (off : Nat) (cs : List ColMeta), (placeCols off cs).map f = cs.map f := by
  intro off cs
  induction cs generalizing off with
  | nil => rfl
  | cons c cs ih => rw [placeCols, List.map_cons, List.map_cons, hf, ih]

theorem projCols_map {α : Type} (f : ColMeta → α) (sel : Cols) :
    (projCols sel).map (fun e => f e.2) = (placeCols 0 (sel.map Prod.snd)).map f := by
  have hlen : (sel.map Prod.fst).length = (placeCols 0 (sel.map Prod.snd)).length := by
    rw [Sql.placeCols_length, List.length_map, List.length_map]
  unfold Sql.projCols
  conv_rhs => rw [← List.map_snd_zip hlen.ge]
  rw [List.map_map]
  rfl

theorem found_captions {cols : Cols} {selCols : List TabCol} {sel : Cols} (h : selCols.mapM (findEntry cols) = .ok sel) :
    selCols.map TabCol.colName = sel.map fun e => e.2.name := by
  have hnames := found_names h
  clear h
  induction hnames with
  | nil => rfl
  | cons hx _ ih => rw [List.map_cons, List.map_cons, hx.2, ih]

theorem metaOf_projCols {cols : Cols} {selCols : List TabCol} {sel : Cols} (h : selCols.mapM (findEntry cols) = .ok sel) :
    metaOf selCols (projCols sel) = selectedCols sel := by
  have hname : (projCols sel).map (fun e => e.2.name) = sel.map fun e => e.2.name := by
    rw [projCols_map ColMeta.name, placeCols_zip ColMeta.name fun _ _ => rfl, List.map_map]
    rfl
  have htype : (projCols sel).map (fun e => e.2.type) = sel.map fun e => e.2.type := by
    rw [projCols_map ColMeta.type, placeCols_zip ColMeta.type fun _ _ => rfl, List.map_map]
    rfl
  have hcaptions : captions selCols (projCols sel) = sel.map fun e => e.2.name := by
    unfold captions
    split
    · exact hname
    · exact found_captions h
  unfold metaOf selectedCols
  rw [hcaptions]
  calc List.zipWith (fun caption e => (textBytes caption, e.2.type)) (sel.map fun e => e.2.name) (projCols sel)
    _ = List.zipWith (fun caption type => (textBytes caption, type)) (sel.map fun e => e.2.name)
          ((projCols sel).map fun e => e.2.type) := by rw [List.zipWith_map_right]
    _ = sel.map fun c => (textBytes c.2.name, c.2.type) := by
          rw [htype, List.zipWith_map, List.zipWith_self]

theorem orderBy_nil (rows : List Bytes) : orderBy [] rows = rows := by
  unfold Sql.orderBy Lib.stableSort
  exact List.Pairwise.insertionSort_eq (List.pairwise_of_forall fun _ _ => rfl)

theorem answer_generated {t : Table} {orders : List (TabCol × Bool)} {selCols : List TabCol} {keys : Sql.SortCols} {sel : Cols}
    (hkeys : findSortCols t.cols orders = .ok keys) (hsel : selCols.mapM (findEntry t.cols) = .ok sel) (limit : Option Nat) :
    answer t (generateSelectPlan orders selCols limit) = .ok ⟨projCols sel,
      ((orderBy keys t.rows).map (projectRow (sel.map Prod.snd))).take (limit.getD (t.rows.length))⟩ := by
  have hproj : answer t (.projection (if orders = [] then .source else .sort .source orders) selCols) =
      .ok ⟨projCols sel, (orderBy keys t.rows).map (projectRow (sel.map Prod.snd))⟩ := by
    by_cases hempty : orders = []
    · subst hempty
      have hnil : keys = [] := by
        unfold Sql.findSortCols at hkeys
        rw [List.mapM_nil] at hkeys
        cases hkeys
        rfl
      rw [if_pos rfl, hnil, orderBy_nil]
      show (selCols.mapM (findEntry t.cols)).bind _ = _
      rw [hsel]
      rfl
    · rw [if_neg hempty]
      show ((findSortCols t.cols orders).bind fun sortCols => Except.ok { t with rows := orderBy sortCols t.rows }).bind _ = _
      rw [hkeys]
      show (selCols.mapM (findEntry t.cols)).bind _ = _
      rw [hsel]
      rfl
  cases limit with
  | none =>
      have hall : ((orderBy keys t.rows).map (projectRow (sel.map Prod.snd))).take t.rows.length =
          (orderBy keys t.rows).map (projectRow (sel.map Prod.snd)) := by
        refine List.take_of_length_le ?_
        rw [List.length_map, (Sql.orderBy_perm keys t.rows).length_eq]
      rw [Option.getD_none, hall]
      exact hproj
  | some n =>
      show (answer t (.projection _ selCols)).bind _ = _
      rw [hproj]
      rfl

theorem portal_generated (orders : List (TabCol × Bool)) (selCols : List TabCol) (limit : Option Nat) :
    portalSelCols (generateSelectPlan orders selCols limit) = selCols ∧
      portalLimit (generateSelectPlan orders selCols limit) = limit := by
  unfold generateSelectPlan
  cases limit with
  | none =>
      refine ⟨rfl, ?_⟩
      dsimp only
      split <;> rfl
  | some n => exact ⟨rfl, rfl⟩

theorem limitReached_below {limit : Option Nat} (hlimit : ∀ n, limit = some n → n < 2 ^ 31) {len i : Nat} (hi : i < len)
    (hlen : ∀ n, limit = some n → len ≤ n) : limitReached limit i = false := by
  cases limit with
  | none => rfl
  | some n =>
      have hn := hlimit n rfl
      have hle := hlen n rfl
      have hint : (BitVec.ofNat 32 n).toInt = n := by
        rw [BitVec.toInt_ofNat', Int.bmod_eq_of_le] <;> omega
      unfold limitReached
      rw [Option.any_some, hint, Bool.and_eq_false_iff]
      refine .inr (decide_eq_false ?_)
      omega

theorem cells_select {sel : Cols} {row : Bytes} (hfit : ∀ c ∈ sel, c.2.offset + c.2.len ≤ row.length)
    (hwords : ∀ c ∈ sel, Words c.2) : cells (projCols sel) (projectRow (sel.map Prod.snd) row) = cells sel row := by
  have hcells := cells_projCols (sel.map Prod.snd) row
    (fun c hc => by
      obtain ⟨c', hc', rfl⟩ := List.mem_map.1 hc
      exact hfit c' hc')
    (fun c hc => by
      obtain ⟨c', hc', rfl⟩ := List.mem_map.1 hc
      exact hwords c' hc') []
  rw [List.map_map] at hcells
  unfold cells
  exact (projCols_map (fun c => cellOf c (projectRow (sel.map Prod.snd) row)) sel).trans hcells

/-- A `SELECT` over an executor that hands `rows` out once, for a client that takes `room` bytes: what it has got is the front of the
whole response, and where the sending has not failed it reads, however its packets are cut, the selected columns of the
rows in the order of `ORDER BY`, the first `LIMIT` of them, and their number. -/
theorem select_received {σ : Type} {e : Executor σ} {rows : List Bytes} {s : σ} (h : e.HandsOut rows s) (hfit : e.Fits)
    (hwords : ∀ c ∈ e.cols, Words c.2) {newRecord : Nat → Bytes} (hnew : ∀ n, (newRecord n).length = n)
    {orders : List (TabCol × Bool)} {selCols : List TabCol} {limit : Option Nat} (hlimit : ∀ n, limit = some n → n < 2 ^ 31)
    {keys : Sql.SortCols} {sel : Cols} (hkeys : findSortCols e.cols orders = .ok keys) (hsel : selCols.mapM (findEntry e.cols) = .ok sel)
    (hsize : ResultFits (selectedCols sel) (selectedRows keys sel limit rows)) {fuel : Nat} (hfuel : rows.length < fuel) (room : Nat) :
    ∃ w, portalRun streamSink e newRecord fuel (generateSelectPlan orders selCols limit) s { sock := { room } } = .ok (some w) ∧
      w.sock.out <+: resultBytes (selectedCols sel) (selectedRows keys sel limit rows) ∧
      (w.failed = false → ∀ es, arrived es = w.sock.out → clientResult fuel es =
        some (selectedCols sel, selectedRows keys sel limit rows, (selectedRows keys sel limit rows).length)) := by
  have hans := answer_generated (t := ⟨e.cols, rows⟩) hkeys hsel limit
  obtain ⟨hselCols, hportal⟩ := portal_generated orders selCols limit
  have hruns : Sql.Runs e s ⟨e.cols, rows⟩ := ⟨rfl, h, hfit⟩
  rcases Sql.answer_cases _ hruns hnew hfuel (generateSelectPlan orders selCols limit) with ⟨err, herr, -⟩ |
    ⟨t, ex, ht, hconv, hex, hle⟩
  · rw [hans] at herr
    cases herr
  · rw [hans] at ht
    cases ht
    -- the rows of the response are those of the answer, cell by cell
    have hmem : ∀ c ∈ sel, c ∈ e.cols := Sql.mem_of_findEntries hsel
    have hcells : ((((orderBy keys rows).map (projectRow (sel.map Prod.snd))).take (limit.getD rows.length)).map
        (cells (projCols sel))) = selectedRows keys sel limit rows := by
      rw [List.map_take, List.map_map]
      have hsame : (orderBy keys rows).map (cells (projCols sel) ∘ projectRow (sel.map Prod.snd)) =
          (orderBy keys rows).map (cells sel) := by
        refine List.map_congr_left fun row hrow => ?_
        have hlen := h.len row ((Sql.orderBy_perm keys rows).mem_iff.1 hrow)
        refine cells_select (fun c hc => ?_) fun c hc => hwords c (hmem c hc)
        rw [hlen]
        exact hfit c (hmem c hc)
      rw [hsame]
      unfold selectedRows
      cases limit with
      | none =>
          refine List.take_of_length_le ?_
          rw [List.length_map, (Sql.orderBy_perm keys rows).length_eq]
          exact le_rfl
      | some n => rfl
    have hreach : ∀ i < (((orderBy keys rows).map (projectRow (sel.map Prod.snd))).take (limit.getD rows.length)).length,
        limitReached (portalLimit (generateSelectPlan orders selCols limit)) i = false := by
      intro i hi
      rw [hportal]
      refine limitReached_below hlimit hi fun n hn => ?_
      subst hn
      rw [List.length_take]
      exact Nat.min_le_left _ _
    have hrun := selectFrom_eq streamSink hex.rows.follows hreach (hle.trans_lt hfuel) selCols
      { sock := { room } }
    rw [hex.cols, hcells, metaOf_projCols hsel] at hrun
    have hstart : Streamed room [] ({ sock := { room } } : StreamSink) :=
      ⟨⟨List.take_nil.symm, (Nat.sub_zero room).symm⟩, (decide_eq_false (Nat.not_lt_zero room)).symm⟩
    have hdone := result_streamed (selectedCols sel) (selectedRows keys sel limit rows) hstart
    obtain ⟨w, hw⟩ : ∃ w, w = streamSink.onEnd (feed streamSink (selectedRows keys sel limit rows) 0 (streamSink.onMeta (selectedCols sel)
        { sock := { room } })).1 (feed streamSink (selectedRows keys sel limit rows) 0 (streamSink.onMeta (selectedCols sel)
          { sock := { room } })).2 := ⟨_, rfl⟩
    rw [← hw] at hrun hdone
    refine ⟨w, ?_, ?_, ?_⟩
    · unfold portalRun
      rw [hconv, hselCols]
      exact congrArg (fun r => (Except.ok r : Except ExecError _)) hrun
    · rw [hdone.sent.out]
      exact List.take_prefix _ _
    · intro hok es harr
      have hall : (resultBytes (selectedCols sel) (selectedRows keys sel limit rows)).length ≤ room := by
        rw [hdone.failed, decide_eq_false_iff_not] at hok
        exact not_lt.1 hok
      rw [hdone.sent.out, List.take_of_length_le hall] at harr
      have hrows : (selectedRows keys sel limit rows).length ≤ rows.length := by
        rw [← hcells, List.length_map]
        exact hle
      exact clientResult_resultBytes hsize (hrows.trans_lt hfuel) harr

def threeRows : List Bytes := [[1, 0, 0, 0], [3, 0, 0, 0], [2, 0, 0, 0]]

/-- `SELECT x FROM t ORDER BY x DESC LIMIT 2`. -/
theorem select_received_desc :
    ∃ w, portalRun streamSink (.ofRows "t" threeRows) (fun n => List.replicate n 0) 4
        (generateSelectPlan [(⟨"", "x"⟩, true)] [⟨"t", "x"⟩] (some 2)) ([], none) { sock := { room := 100 } } = .ok (some w) ∧
      w.sock.out <+: resultBytes [(textBytes "x", .int)] [[.int 3], [.int 2]] ∧
      (w.failed = false → ∀ es, arrived es = w.sock.out →
        clientResult 4 es = some ([(textBytes "x", .int)], [[.int 3], [.int 2]], 2)) := by
  have horder : orderBy [(⟨"x", .int, 4, 0⟩, true)] threeRows = [[3, 0, 0, 0], [2, 0, 0, 0], [1, 0, 0, 0]] := by
    decide
  have hrows : selectedRows [(⟨"x", .int, 4, 0⟩, true)] [("t", ⟨"x", .int, 4, 0⟩)] (some 2) threeRows = [[.int 3], [.int 2]] := by
    unfold selectedRows
    rw [horder]
    decide
  have hkeys : findSortCols [("t", ⟨"x", .int, 4, 0⟩)] [(⟨"", "x"⟩, true)] = .ok [(⟨"x", .int, 4, 0⟩, true)] := by decide
  have hsel : [⟨"t", "x"⟩].mapM (findEntry [("t", ⟨"x", .int, 4, 0⟩)]) = .ok [("t", ⟨"x", .int, 4, 0⟩)] := by decide
  have hnew : ∀ n, (List.replicate n (0 : UInt8)).length = n := fun n => List.length_replicate
  have hlimit : ∀ n, some 2 = some n → n < 2 ^ 31 := fun n hn => by
    cases hn
    decide
  have hselect := select_received (e := .ofRows "t" threeRows) (s := ([], none)) ⟨Lib.Iter.ofList_yieldsOnce threeRows _, by decide⟩ (fun c hc => ?_)
    (fun c hc => ?_) hnew hlimit hkeys hsel ?_
    (by decide : threeRows.length < 4) 100
  · rw [hrows] at hselect
    exact hselect
  · rw [List.mem_singleton.1 hc]
    exact le_rfl
  · rw [List.mem_singleton.1 hc]
    intro _
    rfl
  · rw [hrows]
    refine ⟨⟨by decide, by decide⟩, by decide, fun row hrow => ?_, by decide⟩
    have hcell : ∀ v, List.Forall₂ CellOk [.int] [.int v] := fun v => .cons ⟨rfl, fun s hs => by cases hs⟩ .nil
    rcases List.mem_cons.1 hrow with rfl | hrow
    · exact ⟨hcell 3, by decide⟩
    · rw [List.mem_singleton.1 hrow]
      exact ⟨hcell 2, by decide⟩

end Rmdb.Wire
