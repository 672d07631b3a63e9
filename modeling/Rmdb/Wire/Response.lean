import Rmdb.Wire.Accept
import Rmdb.Wire.Socket

/-!
# Payloads of responses

What the server puts behind the header of a response (src/rmdb.cpp, src/common/wire_protocol.h): the columns
of META, the cells of ROW, the count of RESULT_END, the columns of each statement of PREPARE_OK and the
operations of BATCH_RESULT.  Each but PREPARE_OK is the text of an exact decoder (`exact_metaCols` and below), the rows
of an operation for a client that goes by the types of their columns.  From the reply to an EXEC_BATCH it reads
how far the operations came and, where none has failed, the rows of every query among them (`batch_reply_read`).
-/

namespace Rmdb.Wire

open Rmdb.Lib (Exact exact_pure exact_throw bigEndian bigEndianBytes)
open Rmdb.Txn (Bytes ColType)

def tagMeta : UInt8 := 0x01
def tagRow : UInt8 := 0x02
def tagResultEnd : UInt8 := 0x11
def tagError : UInt8 := 0x13
def tagPrepareOk : UInt8 := 0x14
def tagBatchResult : UInt8 := 0x15

/-! ## Writing -/

def coltypeToSqltype : ColType → UInt8
  | .int => sqltypeInt32
  | .float => sqltypeFloat32
  | .string => sqltypeChar

def putColumnDef (c : Bytes × ColType) : Bytes := bigEndianBytes 2 c.1.length ++ (c.1 ++ [coltypeToSqltype c.2])

def metaPayload (cols : OutCols) : Bytes := bigEndianBytes 2 cols.length ++ cols.flatMap putColumnDef

def endPayload (rowCount : Nat) : Bytes := bigEndianBytes 8 rowCount

/-- A statement of PREPARE_OK; the columns are written like those of META. -/
def putStatement (st : Nat × OutCols) : Bytes := bigEndianBytes 2 st.1 ++ metaPayload st.2

def prepareOkPayload (stmts : List (Nat × OutCols)) : Bytes :=
  bigEndianBytes 2 stmts.length ++ stmts.flatMap putStatement

def BatchStatus.code : BatchStatus → UInt8
  | .ok => 0
  | .transactionAbort => 1
  | .error => 2

def maxDiagnosticBytes : Nat := 64 * 2 ^ 10

def truncateDiag (diag : Bytes) : Bytes := diag.take maxDiagnosticBytes

def textBytes (s : String) : Bytes := s.toUTF8.data.toList

def putOpResult (r : OpResult) : Bytes := bigEndianBytes 2 r.opIndex ++ (bigEndianBytes 4 r.rowCount ++ r.rowsPayload)

def batchResultPayload {σ : Type} (b : BatchResult σ) : Bytes :=
  let diag := truncateDiag (textBytes b.diag)
  bigEndianBytes 2 b.executed ++ (b.status.code ::
    (bigEndianBytes 2 (if b.status = .ok then 0xffff else b.failedOp) ++ (bigEndianBytes 4 diag.length ++ (diag ++
      if b.status = .ok then bigEndianBytes 2 b.results.length ++ b.results.flatMap putOpResult
      else bigEndianBytes 2 0))))

/-! ## Reading -/

def sqltypeToColtype (t : UInt8) : Option ColType :=
  if t = sqltypeInt32 then some .int
  else if t = sqltypeFloat32 then some .float
  else if t = sqltypeChar then some .string
  else none

namespace Read

def text : Read Bytes := do
  let n ← u32
  bytes n

def value : ColType → Read WireCell
  | .int => .int <$> i32
  | .float => .float <$> i32
  | .string => .str <$> text

def cell (type : ColType) : Read WireCell := do
  let present ← u8
  if present ≠ 1 then throw (.protocol "invalid present byte")
  else value type

def columnDef : Read (Bytes × ColType) := do
  let n ← u16
  let name ← bytes n
  let t ← u8
  match sqltypeToColtype t with
  | some type => pure (name, type)
  | none => throw (.protocol "unknown SQL type tag")

def metaCols : Read OutCols := do
  let n ← u16
  (List.range n).mapM fun _ => columnDef

def row (types : List ColType) : Read (List WireCell) := types.mapM cell

def rowCount : Read Nat := bigEndian <$> bytes 8

/-- The operation with its rows, whose types are those of the operation's statement. -/
def opResult (types : Nat → List ColType) : Read (Nat × List (List WireCell)) := do
  let op ← u16
  let n ← u32
  let rows ← (List.range n).mapM fun _ => row (types op)
  pure (op, rows)

end Read

/-- BATCH_RESULT as a client sees it. -/
structure BatchReply where
  executed : Nat
  status : UInt8
  failedOp : Nat
  diag : Bytes
  results : List (Nat × List (List WireCell))
deriving DecidableEq, Repr

def Read.batchResult (types : Nat → List ColType) : Read BatchReply := do
  let executed ← u16
  let status ← u8
  let failedOp ← u16
  let diag ← text
  let n ← u16
  let results ← (List.range n).mapM fun _ => opResult types
  pure { executed, status, failedOp, diag, results }

/-- The value of a payload that is one text of the reader. -/
def decodePayload {α : Type} (p : Read α) (payload : Bytes) : Option α :=
  match p { data := payload } with
  | .error _ => none
  | .ok (a, r) => if r.pos = r.data.length then some a else none

/-! ## The formats -/

theorem exact_text : Exact At Bad Read.text fun s t => s.length < 2 ^ 32 ∧ t = bigEndianBytes 4 s.length ++ s := by
  refine (exact_u32.bind fun n _ hn => exact_bytes (by have := hn.1; omega)).congr fun s t => ?_
  constructor
  · rintro ⟨n, t1, t2, rfl, ⟨hn, rfl⟩, rfl, rfl⟩
    exact ⟨hn, rfl⟩
  · rintro ⟨hs, rfl⟩
    exact ⟨s.length, _, s, rfl, ⟨hs, rfl⟩, rfl, rfl⟩

/-- A cell of a column of that type, whose text has a length. -/
def CellOk (type : ColType) (c : WireCell) : Prop := c.type = type ∧ ∀ s, c = .str s → s.length < 2 ^ 32

theorem exact_value (type : ColType) : Exact At Bad (Read.value type) fun c t => CellOk type c ∧ 1 :: t = wirePutCell c := by
  cases type with
  | int =>
      refine (exact_i32.map _).congr fun c t => ?_
      constructor
      · rintro ⟨v, rfl, rfl⟩
        exact ⟨⟨rfl, fun s hs => by cases hs⟩, rfl⟩
      · rintro ⟨⟨htype, -⟩, ht⟩
        cases c with
        | int v => exact ⟨v, rfl, (List.cons.inj ht).2⟩
        | float bits => cases htype
        | str s => cases htype
  | float =>
      refine (exact_i32.map _).congr fun c t => ?_
      constructor
      · rintro ⟨v, rfl, rfl⟩
        exact ⟨⟨rfl, fun s hs => by cases hs⟩, rfl⟩
      · rintro ⟨⟨htype, -⟩, ht⟩
        cases c with
        | int v => cases htype
        | float bits => exact ⟨bits, rfl, (List.cons.inj ht).2⟩
        | str s => cases htype
  | string =>
      refine (exact_text.map _).congr fun c t => ?_
      constructor
      · rintro ⟨s, rfl, hs, rfl⟩
        refine ⟨⟨rfl, fun s' h => ?_⟩, rfl⟩
        cases h
        exact hs
      · rintro ⟨⟨htype, hlen⟩, ht⟩
        cases c with
        | int v => cases htype
        | float bits => cases htype
        | str s => exact ⟨s, rfl, hlen s rfl, (List.cons.inj ht).2⟩

theorem exact_cell (type : ColType) : Exact At Bad (Read.cell type) fun c t => CellOk type c ∧ t = wirePutCell c := by
  refine (exact_u8.bind fun present _ _ => Exact.unless Fault.noConfusion fun _ => exact_value type).congr fun c t => ?_
  constructor
  · rintro ⟨present, t1, t2, rfl, rfl, hpresent, hok, ht⟩
    obtain rfl := not_not.1 hpresent
    exact ⟨hok, ht⟩
  · rintro ⟨hok, rfl⟩
    have hcons : ∃ t, wirePutCell c = 1 :: t := by cases c <;> exact ⟨_, rfl⟩
    obtain ⟨t, ht⟩ := hcons
    exact ⟨1, [1], t, ht, rfl, by decide, hok, ht.symm⟩

theorem exact_row (types : List ColType) : Exact At Bad (Read.row types) fun cells t =>
    List.Forall₂ CellOk types cells ∧ t = rowPayload cells := by
  refine (Exact.mapM fun type _ => exact_cell type).congr ?_
  induction types with
  | nil =>
      intro cells t
      constructor
      · rintro ⟨rfl, rfl⟩
        exact ⟨.nil, rfl⟩
      · rintro ⟨hcells, rfl⟩
        cases hcells
        exact ⟨rfl, rfl⟩
  | cons type types ih =>
      intro cells t
      constructor
      · rintro ⟨c, cells', t1, t2, rfl, rfl, ⟨hc, rfl⟩, hrest⟩
        obtain ⟨hcells, rfl⟩ := (ih cells' t2).1 hrest
        exact ⟨.cons hc hcells, rfl⟩
      · rintro ⟨hcells, rfl⟩
        cases hcells with
        | cons hc hcells => exact ⟨_, _, _, _, rfl, rfl, ⟨hc, rfl⟩, (ih _ _).2 ⟨hcells, rfl⟩⟩

theorem sqltypeToColtype_code (type : ColType) : sqltypeToColtype (coltypeToSqltype type) = some type := by
  cases type <;> decide

theorem coltypeToSqltype_of_code {t : UInt8} {type : ColType} (h : sqltypeToColtype t = some type) :
    coltypeToSqltype type = t := by
  unfold sqltypeToColtype at h
  split at h
  · next ht => cases h; exact ht.symm
  · split at h
    · next ht => cases h; exact ht.symm
    · split at h
      · next ht => cases h; exact ht.symm
      · cases h

theorem exact_columnDef : Exact At Bad Read.columnDef fun c t => c.1.length < 2 ^ 16 ∧ t = putColumnDef c := by
  have htail : ∀ (name : Bytes) (tag : UInt8), Exact At Bad
      (match sqltypeToColtype tag with
        | some type => (pure (name, type) : Read (Bytes × ColType))
        | none => throw (.protocol "unknown SQL type tag"))
      fun c t => t = [] ∧ c.1 = name ∧ coltypeToSqltype c.2 = tag := by
    intro name tag
    cases htag : sqltypeToColtype tag with
    | some type =>
        refine (exact_pure (name, type)).congr fun c t => ?_
        constructor
        · rintro ⟨rfl, rfl⟩
          exact ⟨rfl, rfl, coltypeToSqltype_of_code htag⟩
        · rintro ⟨rfl, rfl, hcode⟩
          rw [← hcode, sqltypeToColtype_code] at htag
          exact ⟨Prod.ext rfl (Option.some.inj htag), rfl⟩
    | none =>
        refine (exact_throw Fault.noConfusion).congr fun c t => ⟨fun h => h.elim, ?_⟩
        rintro ⟨-, -, hcode⟩
        rw [← hcode, sqltypeToColtype_code] at htag
        cases htag
  refine (exact_u16.bind fun n _ hn => (exact_bytes (by have := hn.1; omega)).bind fun name _ _ =>
    exact_u8.bind fun tag _ _ => htail name tag).congr fun c t => ?_
  constructor
  · rintro ⟨n, t1, u1, rfl, ⟨hn, rfl⟩, name, t2, u2, rfl, ⟨rfl, rfl⟩, tag, t3, u3, rfl, rfl, rfl, hname, rfl⟩
    rw [List.append_nil]
    subst hname
    exact ⟨hn, rfl⟩
  · rintro ⟨hn, rfl⟩
    exact ⟨c.1.length, _, _, rfl, ⟨hn, rfl⟩, c.1, c.1, _, rfl, ⟨rfl, rfl⟩, coltypeToSqltype c.2, [coltypeToSqltype c.2], [],
      rfl, rfl, rfl, rfl, rfl⟩

/-- The number of columns and the lengths of their names fit their fields. -/
def ColsFit (cols : OutCols) : Prop := cols.length < 2 ^ 16 ∧ ∀ c ∈ cols, c.1.length < 2 ^ 16

theorem exact_metaCols : Exact At Bad Read.metaCols fun cols t => ColsFit cols ∧ t = metaPayload cols := by
  refine (exact_u16.bind fun n _ _ => exact_columnDef.replicate n).congr fun cols t => ?_
  constructor
  · rintro ⟨n, t1, t2, rfl, ⟨hn, rfl⟩, rfl, hok, rfl⟩
    exact ⟨⟨hn, hok⟩, rfl⟩
  · rintro ⟨⟨hn, hok⟩, rfl⟩
    exact ⟨cols.length, _, _, rfl, ⟨hn, rfl⟩, rfl, hok, rfl⟩

theorem exact_rowCount : Exact At Bad Read.rowCount fun n t => n < 2 ^ 64 ∧ t = endPayload n := exact_bigEndian (by decide)

/-- An operation with its rows, as `BufferSink` has put them. -/
def bufferedRows (r : Nat × List (List WireCell)) : OpResult := ⟨r.1, r.2.length, r.2.flatMap rowPayload⟩

def RowsFit (types : Nat → List ColType) (r : Nat × List (List WireCell)) : Prop :=
  r.1 < 2 ^ 16 ∧ r.2.length < 2 ^ 32 ∧ ∀ row ∈ r.2, List.Forall₂ CellOk (types r.1) row

theorem exact_opResult (types : Nat → List ColType) : Exact At Bad (Read.opResult types) fun r t =>
    RowsFit types r ∧ t = putOpResult (bufferedRows r) := by
  refine (exact_u16.bind fun op _ _ => exact_u32.bind fun n _ _ => ((exact_row (types op)).replicate n).bind
    fun rows _ _ => exact_pure (op, rows)).congr fun r t => ?_
  constructor
  · rintro ⟨op, t1, u1, rfl, ⟨hop, rfl⟩, n, t2, u2, rfl, ⟨hn, rfl⟩, rows, t3, u3, rfl, ⟨rfl, hrows, rfl⟩, rfl, rfl⟩
    rw [List.append_nil]
    exact ⟨⟨hop, hn, hrows⟩, rfl⟩
  · rintro ⟨⟨hop, hn, hrows⟩, rfl⟩
    exact ⟨r.1, _, _, rfl, ⟨hop, rfl⟩, r.2.length, _, _, rfl, ⟨hn, rfl⟩, r.2, r.2.flatMap rowPayload, [],
      (List.append_nil _).symm, ⟨rfl, hrows, rfl⟩, rfl, rfl⟩

/-- The text of a reply. -/
def BatchReply.encode (b : BatchReply) : Bytes :=
  bigEndianBytes 2 b.executed ++ (b.status :: (bigEndianBytes 2 b.failedOp ++ (bigEndianBytes 4 b.diag.length ++ (b.diag ++
    (bigEndianBytes 2 b.results.length ++ b.results.flatMap fun r => putOpResult (bufferedRows r))))))

structure BatchReply.Fits (types : Nat → List ColType) (b : BatchReply) : Prop where
  executed : b.executed < 2 ^ 16
  failedOp : b.failedOp < 2 ^ 16
  diag : b.diag.length < 2 ^ 32
  count : b.results.length < 2 ^ 16
  rows : ∀ r ∈ b.results, RowsFit types r

theorem exact_batchResult (types : Nat → List ColType) : Exact At Bad (Read.batchResult types) fun b t =>
    b.Fits types ∧ t = b.encode := by
  refine (exact_u16.bind fun executed _ _ => exact_u8.bind fun status _ _ => exact_u16.bind fun failedOp _ _ =>
    exact_text.bind fun diag _ _ => exact_u16.bind fun n _ _ => ((exact_opResult types).replicate n).bind fun results _ _ =>
      exact_pure ({ executed, status, failedOp, diag, results } : BatchReply)).congr fun b t => ?_
  constructor
  · rintro ⟨executed, t1, u1, rfl, ⟨hexec, rfl⟩, status, t2, u2, rfl, rfl, failedOp, t3, u3, rfl, ⟨hfailed, rfl⟩, diag, t4, u4, rfl,
      ⟨hdiag, rfl⟩, n, t5, u5, rfl, ⟨hn, rfl⟩, results, t6, u6, rfl, ⟨rfl, hrows, rfl⟩, rfl, rfl⟩
    refine ⟨⟨hexec, hfailed, hdiag, hn, hrows⟩, ?_⟩
    rw [List.append_nil, List.append_assoc]
    rfl
  · rintro ⟨hfits, rfl⟩
    refine ⟨b.executed, _, _, rfl, ⟨hfits.executed, rfl⟩, b.status, [b.status], _, rfl, rfl, b.failedOp, _, _, rfl,
      ⟨hfits.failedOp, rfl⟩, b.diag, bigEndianBytes 4 b.diag.length ++ b.diag, _, (List.append_assoc _ _ _).symm,
        ⟨hfits.diag, rfl⟩, b.results.length, _, _, rfl, ⟨hfits.count, rfl⟩, b.results, _, [], (List.append_nil _).symm,
          ⟨rfl, hfits.rows, rfl⟩, rfl, rfl⟩

/-! ## Decoded payloads -/

theorem decodePayload_of_exact {α : Type} {p : Read α} {F : Lib.Format UInt8 α} (h : Exact At Bad p F) {a : α} {payload : Bytes}
    (hlen : payload.length < 2 ^ 63) (ha : F a payload) : decodePayload p payload = some a := by
  have hat : At { data := payload } (payload ++ []) := by
    rw [List.append_nil]
    exact ⟨hlen, Nat.zero_le _, rfl⟩
  obtain ⟨r, hp, hr⟩ := h.complete _ a payload [] hat ha
  unfold decodePayload
  rw [hp]
  have hend := hr.length
  rw [List.length_nil, Nat.add_zero] at hend
  exact if_pos hend

theorem length_truncateDiag (diag : Bytes) : (truncateDiag diag).length < 2 ^ 32 := by
  unfold truncateDiag maxDiagnosticBytes
  rw [List.length_take]
  omega

/-! ## The reply to an EXEC_BATCH -/

section Batch

variable {σ : Type} {g9 : BitVec 32 → Bytes} {runSqlStatement : σ → Bytes → Bool → SqlRun × σ} {prepared : Prepared}

/-- What an operation on the statement is decoded to. -/
def Operation.decoded (g9 : BitVec 32 → Bytes) (op : Operation) (st : WirePreparedStmt) : Option (WirePreparedStmt × List Bytes) :=
  if op.NoQuote then some (st, op.literals g9 st) else none

variable (runSqlStatement) in
/-- The statements that are executed, each with its run: one after another, up to the first operation that is not decoded or
whose statement fails. -/
def batchRuns : List (Option (WirePreparedStmt × List Bytes)) → σ → List (WirePreparedStmt × SqlRun)
  | [], _ => []
  | none :: _, _ => []
  | some stmt :: stmts, state =>
      let run := runSqlStatement state (wireSubstituteParams stmt.1.sqlTemplate stmt.2) stmt.1.isQuery
      if run.1.outcome = .ok then (stmt.1, run.1) :: batchRuns stmts run.2 else []

/-- The queries among statements, of which the first is the operation `op`, with the rows that each has handed its sink. -/
def queryRows : Nat → List (WirePreparedStmt × SqlRun) → List (Nat × List (List WireCell))
  | _, [] => []
  | op, (st, run) :: runs =>
      if st.isQuery then (op, handedRows run.calls) :: queryRows (op + 1) runs else queryRows (op + 1) runs

theorem queryRows_length_le : ∀ (op : Nat) (runs : List (WirePreparedStmt × SqlRun)), (queryRows op runs).length ≤ runs.length := by
  intro op runs
  induction runs generalizing op with
  | nil => exact le_rfl
  | cons run runs ih =>
      have htail := ih (op + 1)
      unfold queryRows
      split
      · exact Nat.succ_le_succ htail
      · exact htail.trans (Nat.le_succ _)

theorem queryRows_lt {r : Nat × List (List WireCell)} : ∀ {op : Nat} {runs : List (WirePreparedStmt × SqlRun)},
    r ∈ queryRows op runs → r.1 < op + runs.length := by
  intro op runs
  induction runs generalizing op with
  | nil => exact fun h => absurd h List.not_mem_nil
  | cons run runs ih =>
      intro h
      have htail : r ∈ queryRows (op + 1) runs → r.1 < op + (run :: runs).length := fun h => by
        have hlt := ih h
        rw [List.length_cons]
        omega
      unfold queryRows at h
      split at h
      · rcases List.mem_cons.1 h with rfl | h
        · show op < op + (runs.length + 1)
          omega
        · exact htail h
      · exact htail h

/-- What `count` operations from `op` on have done, of which those in `runs` were executed. -/
structure Ran (op count : Nat) (b : BatchResult σ) (runs : List (WirePreparedStmt × SqlRun)) (b' : BatchResult σ) : Prop where
  executed : b'.executed = b.executed + runs.length
  results : b'.results = b.results ++ (queryRows op runs).map bufferedRows
  ended : (b'.status = .ok ∧ runs.length = count) ∨ (b'.status ≠ .ok ∧ b'.failedOp = op + runs.length ∧ runs.length < count)

theorem Ran.failed {op count : Nat} {b b' : BatchResult σ} (hexecuted : b'.executed = b.executed) (hresults : b'.results = b.results)
    (hstatus : b'.status ≠ .ok) (hop : b'.failedOp = op) : Ran op (count + 1) b [] b' :=
  ⟨hexecuted, hresults.trans (List.append_nil _).symm, .inr ⟨hstatus, hop, Nat.succ_pos count⟩⟩

theorem execOp_ok (op : Nat) {st : WirePreparedStmt} {literals : List Bytes} {b : BatchResult σ} {run : SqlRun × σ}
    (hrun : runSqlStatement b.state (wireSubstituteParams st.sqlTemplate literals) st.isQuery = run) (hok : run.1.outcome = .ok) :
    (execOp runSqlStatement op (st, literals) b).status = b.status ∧ (execOp runSqlStatement op (st, literals) b).state = run.2 ∧
      (execOp runSqlStatement op (st, literals) b).executed = b.executed + 1 ∧ (execOp runSqlStatement op (st, literals) b).results =
        if st.isQuery then b.results ++ [bufferedRows (op, handedRows run.1.calls)] else b.results := by
  unfold execOp
  dsimp only
  rw [hrun, hok, bufferSink_calls, Nat.zero_add]
  exact ⟨rfl, rfl, rfl, rfl⟩

theorem execOp_failed (op : Nat) {st : WirePreparedStmt} {literals : List Bytes} {b : BatchResult σ}
    (hfail : (runSqlStatement b.state (wireSubstituteParams st.sqlTemplate literals) st.isQuery).1.outcome ≠ .ok) (count : Nat) :
    Ran op (count + 1) b [] (execOp runSqlStatement op (st, literals) b) ∧ (execOp runSqlStatement op (st, literals) b).status ≠ .ok := by
  unfold execOp
  dsimp only
  split
  · next h => exact absurd h hfail
  · exact ⟨.failed rfl rfl BatchStatus.noConfusion rfl, BatchStatus.noConfusion⟩
  · exact ⟨.failed rfl rfl BatchStatus.noConfusion rfl, BatchStatus.noConfusion⟩

/-- Behind an operation that was executed. -/
theorem Ran.cons {op count : Nat} {b b1 b' : BatchResult σ} {st : WirePreparedStmt} {run : SqlRun}
    {runs : List (WirePreparedStmt × SqlRun)} (h : Ran (op + 1) count b1 runs b') (hexecuted : b1.executed = b.executed + 1)
    (hresults : b1.results = if st.isQuery then b.results ++ [bufferedRows (op, handedRows run.calls)] else b.results) :
    Ran op (count + 1) b ((st, run) :: runs) b' := by
  refine ⟨?_, ?_, ?_⟩
  · rw [h.executed, hexecuted, List.length_cons, Nat.add_assoc, Nat.add_comm 1]
  · rw [h.results, hresults, queryRows]
    split
    · rw [List.map_cons, List.append_assoc]
      rfl
    · rfl
  · rw [List.length_cons]
    rcases h.ended with ⟨hok, hlen⟩ | ⟨hfail, hop, hlt⟩
    · exact .inl ⟨hok, congrArg (· + 1) hlen⟩
    · exact .inr ⟨hfail, by omega, Nat.succ_lt_succ hlt⟩

/-- Operation by operation; the batch ends with the last one or with the first that is not decoded or fails. -/
theorem execOps_ran {ops : List Operation} {sts : List WirePreparedStmt} (hok : List.Forall₂ (Operation.Ok prepared) ops sts) :
    ∀ {r : Reader} {rest : Bytes} {op : Nat} {b : BatchResult σ}, At r (ops.flatMap Operation.encode ++ rest) → b.status = .ok →
      ∃ b', execOps g9 runSqlStatement prepared ops.length op r b = .ok b' ∧
        Ran op ops.length b (batchRuns runSqlStatement (List.zipWith (Operation.decoded g9) ops sts) b.state) b' := by
  induction hok with
  | nil => exact fun {r rest op b} _ hstatus => ⟨b, rfl, rfl, (List.append_nil _).symm, .inl ⟨hstatus, rfl⟩⟩
  | @cons operation st ops sts hop hops ih =>
      intro r rest op b hr hstatus
      rw [List.flatMap_cons, List.append_assoc] at hr
      rw [List.length_cons, List.zipWith_cons_cons]
      unfold execOps
      by_cases hquote : operation.NoQuote
      · have hdecoded : operation.decoded g9 st = some (st, operation.literals g9 st) := if_pos hquote
        obtain ⟨r', hread, hr'⟩ := exact_readOp.complete r (st, operation.literals g9 st) operation.encode _ hr
          ⟨operation, hop, hquote, rfl, rfl⟩
        rw [hread, hdecoded, batchRuns]
        dsimp only
        obtain ⟨run, hrun⟩ : ∃ run, runSqlStatement b.state (wireSubstituteParams st.sqlTemplate (operation.literals g9 st)) st.isQuery = run :=
          ⟨_, rfl⟩
        rw [hrun]
        by_cases hout : run.1.outcome = .ok
        · obtain ⟨hstatus1, hstate1, hexecuted1, hresults1⟩ := execOp_ok op hrun hout
          obtain ⟨b', hb', hran⟩ := ih hr' (hstatus1.trans hstatus)
          rw [hstate1] at hran
          rw [if_pos (hstatus1.trans hstatus), if_pos hout]
          exact ⟨b', hb', hran.cons hexecuted1 hresults1⟩
        · have hout' : (runSqlStatement b.state (wireSubstituteParams st.sqlTemplate (operation.literals g9 st)) st.isQuery).1.outcome ≠ .ok := by
            rw [hrun]
            exact hout
          obtain ⟨hran, hfail⟩ := execOp_failed op hout' ops.length
          rw [if_neg hfail, if_neg hout]
          exact ⟨_, rfl, hran⟩
      · have hdecoded : operation.decoded g9 st = none := if_neg hquote
        obtain ⟨e, he⟩ := readOp_refuses hop hquote r _ hr
        rw [he, hdecoded]
        cases e with
        | protocol msg => exact ⟨_, rfl, .failed rfl rfl BatchStatus.noConfusion rfl⟩
        | overrun => exact absurd rfl (exact_readOp.safe r _ .overrun hr he)

theorem handleExecBatch_ran (autoAbort : σ → σ) {ops : List Operation} {sts : List WirePreparedStmt} (hbatch : ExecBatch prepared ops sts)
    (hlen : (encodeExecBatch ops).length < 2 ^ 63) (state : σ) :
    ∃ b, handleExecBatch g9 runSqlStatement autoAbort prepared (encodeExecBatch ops) state = .ok b ∧
      Ran 0 ops.length { state := state } (batchRuns runSqlStatement (List.zipWith (Operation.decoded g9) ops sts) state) b := by
  have hcount := hbatch.count
  obtain ⟨r, hread, hr⟩ := exact_u16.complete _ ops.length _ _ (at_payload hlen) ⟨by omega, rfl⟩
  have hread' : Read.u16 { data := encodeExecBatch ops } = .ok (ops.length, r) := hread
  rw [← List.append_nil (ops.flatMap Operation.encode)] at hr
  have hops : ∃ b, execOps g9 runSqlStatement prepared ops.length 0 r { state := state } = .ok b ∧
      Ran 0 ops.length { state := state } (batchRuns runSqlStatement (List.zipWith (Operation.decoded g9) ops sts) state) b :=
    execOps_ran hbatch.ok hr rfl
  obtain ⟨b, hb, hran⟩ := hops
  refine ⟨finishBatch autoAbort b, ?_, ?_⟩
  · unfold handleExecBatch
    rw [hread']
    dsimp only
    rw [if_neg (by omega), hb]
  · unfold finishBatch
    split
    · exact hran
    · exact ⟨hran.executed, hran.results, hran.ended⟩

/-- The types by which a client reads the rows. -/
def Typed (types : List ColType) (rows : List (List WireCell)) : Prop := ∀ row ∈ rows, row ≠ [] ∧ row.map Sql.Value.type = types

theorem length_le_flatMap {α β : Type} {f : α → List β} {a : α} {as : List α} (h : a ∈ as) : (f a).length ≤ (as.flatMap f).length := by
  rw [List.flatMap_def]
  exact (List.sublist_flatten_of_mem (List.mem_map_of_mem h)).length_le

/-- Numbers and texts that stand in a payload of that size fit their fields. -/
theorem rowsFit_of_typed {types : Nat → List ColType} {r : Nat × List (List WireCell)} (hop : r.1 < 2 ^ 16)
    (hsize : (r.2.flatMap rowPayload).length < 2 ^ 32) (h : Typed (types r.1) r.2) : RowsFit types r := by
  refine ⟨hop, lt_of_le_of_lt ?_ hsize, fun row hrow => ?_⟩
  · have hrows : ∀ n ∈ r.2.map fun row => (rowPayload row).length, 1 ≤ n := by
      intro n hn
      obtain ⟨row, hrow, rfl⟩ := List.mem_map.1 hn
      exact (List.length_pos_iff.2 (h row hrow).1).trans_le (length_le_rowPayload row)
    have hsum := List.length_le_sum_of_one_le _ hrows
    rw [List.length_map] at hsum
    rw [List.length_flatMap]
    exact hsum
  · rw [← (h row hrow).2, List.forall₂_map_left_iff, List.forall₂_same]
    rintro c hc
    refine ⟨rfl, ?_⟩
    rintro s rfl
    have htext : s.length ≤ (wirePutCell (.str s)).length := by
      show s.length ≤ (bigEndianBytes 4 s.length ++ s).length + 1
      rw [List.length_append]
      omega
    have hcell : (wirePutCell (.str s)).length ≤ (rowPayload row).length := length_le_flatMap hc
    have hpayload : (rowPayload row).length ≤ (r.2.flatMap rowPayload).length := length_le_flatMap hrow
    omega

/-- The reply that a client reads. -/
def batchReply (b : BatchResult σ) (rs : List (Nat × List (List WireCell))) : BatchReply where
  executed := b.executed
  status := b.status.code
  failedOp := if b.status = .ok then 0xffff else b.failedOp
  diag := truncateDiag (textBytes b.diag)
  results := if b.status = .ok then rs else []

theorem batchReply_encode {b : BatchResult σ} {rs : List (Nat × List (List WireCell))} (h : b.results = rs.map bufferedRows) :
    (batchReply b rs).encode = batchResultPayload b := by
  unfold BatchReply.encode batchReply batchResultPayload
  by_cases hok : b.status = .ok
  · simp only [if_pos hok, h, List.length_map, List.flatMap_map]
  · simp only [if_neg hok]
    rfl

/-- The rows of a reply stand in its payload. -/
theorem BatchReply.length_rows_le {b : BatchReply} {r : Nat × List (List WireCell)} (h : r ∈ b.results) :
    (r.2.flatMap rowPayload).length ≤ b.encode.length := by
  have hop : (r.2.flatMap rowPayload).length ≤ (putOpResult (bufferedRows r)).length := by
    unfold putOpResult
    rw [List.length_append, List.length_append]
    exact (Nat.le_add_left _ _).trans (Nat.le_add_left _ _)
  have hall : (putOpResult (bufferedRows r)).length ≤ (b.results.flatMap fun r => putOpResult (bufferedRows r)).length :=
    length_le_flatMap (f := fun r => putOpResult (bufferedRows r)) h
  unfold BatchReply.encode
  simp only [List.length_append, List.length_cons]
  omega

/-- A request of operations is executed up to the first operation that has a quote in a CHAR parameter or whose statement
fails.  The reply names how many were executed and, where one failed, which; and from a reply that is sent a client
that goes by the types which the rows have reads what every query has handed its sink, or no rows if an operation
failed. -/
theorem batch_reply_read (g9 : BitVec 32 → Bytes) (runSqlStatement : σ → Bytes → Bool → SqlRun × σ) (autoAbort : σ → σ)
    {ops : List Operation} {sts : List WirePreparedStmt} (hbatch : ExecBatch prepared ops sts)
    (hlen : (encodeExecBatch ops).length < 2 ^ 63) (state : σ) :
    ∃ b runs, handleExecBatch g9 runSqlStatement autoAbort prepared (encodeExecBatch ops) state = .ok b ∧
      runs = batchRuns runSqlStatement (List.zipWith (Operation.decoded g9) ops sts) state ∧ b.executed = runs.length ∧
      ((b.status = .ok ∧ runs.length = ops.length) ∨ (b.status ≠ .ok ∧ b.failedOp = runs.length ∧ runs.length < ops.length)) ∧
      ((batchResultPayload b).length ≤ maxPayloadBytes → ∀ types : Nat → List ColType,
        (b.status = .ok → ∀ r ∈ queryRows 0 runs, Typed (types r.1) r.2) →
          decodePayload (Read.batchResult types) (batchResultPayload b) = some (batchReply b (queryRows 0 runs))) := by
  obtain ⟨runs, hruns⟩ : ∃ runs, runs = batchRuns runSqlStatement (List.zipWith (Operation.decoded g9) ops sts) state := ⟨_, rfl⟩
  have hbatch' : ∃ b, handleExecBatch g9 runSqlStatement autoAbort prepared (encodeExecBatch ops) state = .ok b ∧
      Ran 0 ops.length { state := state } runs b := by
    rw [hruns]
    exact handleExecBatch_ran autoAbort hbatch hlen state
  obtain ⟨b, hb, hran⟩ := hbatch'
  have hexecuted : b.executed = runs.length := hran.executed.trans (Nat.zero_add _)
  have hended := hran.ended
  rw [Nat.zero_add] at hended
  have hcount := hbatch.count
  have hle : runs.length ≤ ops.length := by omega
  refine ⟨b, runs, hb, hruns, hexecuted, hended, fun hsize types htypes => ?_⟩
  have hencode := batchReply_encode (hran.results.trans (List.nil_append _))
  rw [← hencode] at hsize ⊢
  unfold maxPayloadBytes at hsize
  refine decodePayload_of_exact (exact_batchResult types) (by omega) ⟨⟨?_, ?_, length_truncateDiag _, ?_, ?_⟩, rfl⟩
  · show b.executed < 2 ^ 16
    omega
  · show (if b.status = .ok then 0xffff else b.failedOp) < 2 ^ 16
    rcases hended with ⟨hok, -⟩ | ⟨hfail, hop, -⟩
    · rw [if_pos hok]
      decide
    · rw [if_neg hfail, hop]
      omega
  · have hrows := queryRows_length_le 0 runs
    show (if b.status = .ok then queryRows 0 runs else []).length < 2 ^ 16
    split
    · omega
    · decide
  · intro r hr
    have hfit := BatchReply.length_rows_le hr
    change r ∈ (if b.status = .ok then queryRows 0 runs else []) at hr
    split at hr
    · next hok =>
        have hop := queryRows_lt hr
        exact rowsFit_of_typed (by omega) (by omega) (htypes hok r hr)
    · cases hr

end Batch

/-- The query `$1` of one `INT` column, for a parameter of that type. -/
def markerQuery : WirePreparedStmt := { sqlTemplate := [36, 49], paramTypes := [sqltypeInt32], isQuery := true, outCols := [([120], .int)] }

/-- It hands its sink the rows 7 and 8. -/
def runMarker (state : Nat) (_ : Bytes) (_ : Bool) : SqlRun × Nat :=
  (⟨.ok, [.onMeta [([120], .int)], .onRow [.int 7], .onRow [.int 8], .onEnd 2], ""⟩, state + 1)

theorem batch_reply_read_marker :
    ∃ b runs, handleExecBatch (fun _ => []) runMarker id [(1, markerQuery)] (encodeExecBatch [⟨1, [.int 7]⟩, ⟨1, [.int 8]⟩]) 0 = .ok b ∧
      runs = batchRuns runMarker [some (markerQuery, [[55]]), some (markerQuery, [[56]])] 0 ∧ b.executed = runs.length ∧
      ((b.status = .ok ∧ runs.length = 2) ∨ (b.status ≠ .ok ∧ b.failedOp = runs.length ∧ runs.length < 2)) ∧
      ((batchResultPayload b).length ≤ maxPayloadBytes → ∀ types : Nat → List ColType,
        (b.status = .ok → ∀ r ∈ queryRows 0 runs, Typed (types r.1) r.2) →
          decodePayload (Read.batchResult types) (batchResultPayload b) = some (batchReply b (queryRows 0 runs))) := by
  have hbatch : ExecBatch [(1, markerQuery)] [⟨1, [.int 7]⟩, ⟨1, [.int 8]⟩] [markerQuery, markerQuery] :=
    ⟨by decide, .cons ⟨by decide, rfl, .cons rfl .nil⟩ (.cons ⟨by decide, rfl, .cons rfl .nil⟩ .nil)⟩
  exact batch_reply_read (fun _ => []) runMarker id hbatch (by decide) 0

end Rmdb.Wire
